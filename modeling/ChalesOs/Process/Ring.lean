import Mathlib.Data.List.Perm.Subperm
import ChalesOs.Lib.PointerRing
import ChalesOs.Process.Sched

/-!
# The ring of tasks and the kernel heap

Every task but the initial one is a pair of heap allocations, the task itself and its kernel
stack. `TaskRing L m ring` says that the tasks of `ring` are linked in this order and that what
they own is exactly what is live on the heap, so that no link of the ring dangles and nothing is
lost. `sched_reap` and `sched_task_new` are the two functions that change the ring, and
`TaskRing.reap` and `TaskRing.schedTaskNew` say that both keep it.

All they do to the tasks that stay is to change their links; `Machine.relink` is this change.
-/

namespace ChalesOs

open PointerRing

/-- The links of the ring. -/
abbrev Machine.nextOf (m : Machine) : ℕ → ℕ := fun t => (m.tasks t).next

/-- The machine with other links and another heap. -/
def Machine.relink (m : Machine) (next : ℕ → ℕ) (heap : KernelHeap) : Machine :=
  { m with tasks := fun t => { m.tasks t with next := next t }, heap := heap }

/-- What `sched_reap` looks for: a dead task that has been allocated. -/
def Machine.doomed (m : Machine) (t : ℕ) : Bool :=
  (m.tasks t).state = .dead ∧ (m.tasks t).heapAlloc

/-- What `sched_reap` frees of the tasks in `l`, in its order. -/
def Machine.garbage (m : Machine) (l : List ℕ) : List ℕ :=
  (l.filter m.doomed).flatMap fun t => [(m.tasks t).stack, t]

/-- The heap allocations the tasks of `ring` own. -/
def Machine.owned (L : Layout) (m : Machine) (ring : List ℕ) : List ℕ :=
  (ring.filter (· ≠ L.task0)).flatMap fun t => [t, (m.tasks t).stack]

/-- The tasks of `ring` are linked in this order, and what they own is what is live. -/
structure TaskRing (L : Layout) (m : Machine) (ring : List ℕ) : Prop where
  isRing : IsRing m.nextOf ring
  task0_mem : L.task0 ∈ ring
  heapAlloc : ∀ t ∈ ring, (m.tasks t).heapAlloc = true ↔ t ≠ L.task0
  arena : m.heap.InArena L
  live : (m.heap.live L).Perm (m.owned L ring)

variable {L : Layout} {m m' : Machine} {t a b p c entry sp : ℕ} {ring rest l l' : List ℕ}
  {next : ℕ → ℕ} {heap : KernelHeap}

/-! ### Changed links -/

@[simp] theorem Machine.relink_tasks :
    (m.relink next heap).tasks t = { m.tasks t with next := next t } := rfl

@[simp] theorem Machine.relink_heap : (m.relink next heap).heap = heap := rfl

@[simp] theorem Machine.relink_mem : (m.relink next heap).mem = m.mem := rfl

@[simp] theorem Machine.relink_userBrk : (m.relink next heap).userBrk = m.userBrk := rfl

@[simp] theorem Machine.relink_currentTask :
    (m.relink next heap).currentTask = m.currentTask := rfl

@[simp] theorem Machine.relink_execPool : (m.relink next heap).execPool = m.execPool := rfl

@[simp] theorem Machine.relink_execPoolUsed :
    (m.relink next heap).execPoolUsed = m.execPoolUsed := rfl

@[simp] theorem Machine.relink_halted : (m.relink next heap).halted = m.halted := rfl

theorem Machine.doomed_iff :
    m.doomed t = true ↔ (m.tasks t).state = .dead ∧ (m.tasks t).heapAlloc = true := by
  rw [doomed, decide_eq_true_iff]

/-! ### The ring on the heap -/

/-- The ring depends on the heap, the links and the allocations of its tasks only. -/
theorem TaskRing.congr (h : TaskRing L m ring) (hheap : m'.heap = m.heap)
    (hnext : ∀ t ∈ ring, m'.nextOf t = m.nextOf t)
    (halloc : ∀ t ∈ ring, (m'.tasks t).heapAlloc = (m.tasks t).heapAlloc)
    (hstack : ∀ t ∈ ring, (m'.tasks t).stack = (m.tasks t).stack) : TaskRing L m' ring where
  isRing := h.isRing.congr hnext
  task0_mem := h.task0_mem
  heapAlloc t ht := by rw [halloc t ht, h.heapAlloc t ht]
  arena := hheap ▸ h.arena
  live := by
    have howned : m'.owned L ring = m.owned L ring :=
      List.flatMap_congr fun t ht => by rw [hstack t (List.mem_of_mem_filter ht)]
    rw [hheap, howned]
    exact h.live

/-- Every task but the initial one is live. -/
theorem TaskRing.mem_live (h : TaskRing L m ring) (ht : t ∈ ring) (ht0 : t ≠ L.task0) :
    t ∈ m.heap.live L := by
  refine h.live.mem_iff.mpr (List.mem_flatMap.mpr ⟨t, ?_, List.mem_cons_self⟩)
  exact List.mem_filter.mpr ⟨ht, by simpa using ht0⟩

/-- The initial task lies in front of the heap, every other one in it. -/
theorem TaskRing.bounds (h : TaskRing L m ring) (ht : t ∈ ring) : 0 < t ∧ t < 0xFFFFFFFF := by
  have h₁ := L.kernelStart_eq
  have h₂ := L.kernelStart_le_userStart
  have h₃ := L.userStart_le_userEnd
  have h₄ := L.userEnd_le_task0
  have h₅ := L.task0_lt_heapStart
  have h₆ := L.heapEnd_eq
  have h₇ := L.heapEnd_le_userHeapStart
  have h₈ := L.userHeapEnd_eq
  have h₉ := L.userHeapEnd_le_kernelEnd
  have h₁₀ := L.kernelEnd_le
  by_cases ht0 : t = L.task0
  · omega
  have := h.arena.mem_live (h.mem_live ht ht0)
  omega

theorem TaskRing.ne_zero (h : TaskRing L m ring) (ht : t ∈ ring) : t ≠ 0 :=
  (h.bounds ht).1.ne'

/-- The bound on the loops is enough. -/
theorem TaskRing.length_lt (h : TaskRing L m ring) : ring.length < ringFuel := by
  have hsub : ring ⊆ List.range 0xFFFFFFFF := fun t ht => List.mem_range.mpr (h.bounds ht).2
  have hle := (List.subperm_of_subset h.isRing.nodup hsub).length_le
  rw [List.length_range] at hle
  rw [ringFuel]
  omega

/-- The ring may be read from any of its tasks. -/
theorem TaskRing.rotate (h : TaskRing L m ring) (ht : t ∈ ring) :
    ∃ rest, TaskRing L m (t :: rest) ∧ (t :: rest).Perm ring := by
  obtain ⟨rest, hring, hperm⟩ := h.isRing.exists_cons ht
  refine ⟨rest, ⟨hring, hperm.mem_iff.mpr h.task0_mem, fun x hx => ?_, h.arena, ?_⟩, hperm⟩
  · exact h.heapAlloc x (hperm.mem_iff.mp hx)
  · exact h.live.trans ((hperm.symm.filter _).flatMap_right _)

/-! ### `sched_reap` -/

/-- The machine when the loop of `sched_reap` has freed the task `t` behind `prev`. -/
def Machine.reapOne (L : Layout) (m : Machine) (prev t : ℕ) : Machine :=
  { m.modifyTask prev fun p => { p with next := m.nextOf t } with
    heap := kfree L (kfree L m.heap (m.tasks t).stack) t }

section ReapOne

variable (m) (prev t : ℕ)

private theorem Machine.reapOne_tasks : (m.reapOne L prev t).tasks =
    (m.modifyTask prev fun p => { p with next := m.nextOf t }).tasks := rfl

theorem Machine.reapOne_nextOf :
    (m.reapOne L prev t).nextOf = Function.update m.nextOf prev (m.nextOf t) := by
  funext x
  by_cases hx : x = prev
  · rw [hx, Function.update_self, nextOf, reapOne_tasks, modifyTask_self]
  · rw [Function.update_of_ne hx, nextOf, reapOne_tasks, modifyTask_of_ne _ _ _ hx]

/-- Only links and the heap change. -/
theorem Machine.reapOne_keeps {α : Type} (g : Task → α)
    (hg : ∀ (t : Task) next, g { t with next := next } = g t) (x : ℕ) :
    g ((m.reapOne L prev t).tasks x) = g (m.tasks x) := by
  rw [reapOne_tasks]
  exact m.modifyTask_keeps prev _ g x (hg _ _)

theorem Machine.reapOne_doomed : (m.reapOne L prev t).doomed = m.doomed := by
  funext x
  rw [doomed, doomed, m.reapOne_keeps prev t Task.state fun _ _ => rfl,
    m.reapOne_keeps prev t Task.heapAlloc fun _ _ => rfl]

theorem Machine.reapOne_garbage : (m.reapOne L prev t).garbage l = m.garbage l := by
  rw [garbage, garbage, m.reapOne_doomed]
  exact List.flatMap_congr fun x _ => by rw [m.reapOne_keeps prev t Task.stack fun _ _ => rfl]

theorem Machine.reapOne_relink : (m.reapOne L prev t).relink next heap = m.relink next heap := by
  refine congrArg (fun tasks => { m with tasks := tasks, heap := heap }) (funext fun x => ?_)
  exact m.reapOne_keeps prev t (fun t => { t with next := next x }) (fun _ _ => rfl) x

end ReapOne

/-- The loop of `sched_reap`, `l` being the tasks it has not reached yet. -/
theorem schedReapLoop_spec (fuel : ℕ) (hring : IsRing m.nextOf (l' ++ p :: l))
    (hhead : (l' ++ [p]).head? = some m.currentTask) :
    ∃ next, schedReapLoop L m (fuel + 1 + l.length) p (m.nextOf p) =
        some (m.relink next ((m.garbage l).foldl (kfree L) m.heap), m.garbage l) ∧
      IsRing next (l' ++ p :: l.filter (!m.doomed ·)) := by
  induction l generalizing m l' p with
  | nil =>
    refine ⟨m.nextOf, ?_, hring⟩
    rw [hring.next_last hhead, List.length_nil, schedReapLoop, if_pos rfl]
    rfl
  | cons x l ih =>
    have hx : m.nextOf p = x := hring.next_eq
    have hxcur : x ≠ m.currentTask := by
      rintro rfl
      have hmem : m.currentTask ∈ l' ++ [p] := List.mem_of_mem_head? hhead
      have hnd := hring.nodup
      rw [List.append_cons, List.nodup_append] at hnd
      exact hnd.2.2 _ hmem _ (by simp) rfl
    rw [hx, List.length_cons, ← Nat.add_assoc, schedReapLoop, if_neg hxcur]
    -- a doomed task is unlinked, and `p` stays where it is; otherwise `p` moves on
    by_cases hdoom : m.doomed x = true
    · rw [if_pos (Machine.doomed_iff.mp hdoom)]
      obtain ⟨next, hloop, hnext⟩ := ih (m := m.reapOne L p x)
        (m.reapOne_nextOf p x ▸ hring.remove) hhead
      refine ⟨next, ?_, ?_⟩
      · rw [m.reapOne_nextOf, Function.update_self, m.reapOne_relink, m.reapOne_garbage] at hloop
        rw [Machine.garbage, List.filter_cons_of_pos hdoom]
        exact congrArg (Option.map fun r => (r.1, (m.tasks x).stack :: x :: r.2)) hloop
      · rw [List.filter_cons_of_neg (by simpa using hdoom), ← m.reapOne_doomed p x]
        exact hnext
    · rw [if_neg (mt Machine.doomed_iff.mpr hdoom)]
      have hring' : IsRing m.nextOf ((l' ++ [p]) ++ x :: l) := by simpa using hring
      obtain ⟨next, hloop, hnext⟩ := ih hring' (by
        rw [List.head?_append, hhead]
        rfl)
      refine ⟨next, ?_, ?_⟩
      · rw [hloop, Machine.garbage, Machine.garbage, List.filter_cons_of_neg hdoom]
      · rw [List.filter_cons_of_pos (by simpa using hdoom)]
        simpa using hnext

/-- What the tasks of a ring own, with what a reaping would free in front. -/
private theorem TaskRing.owned_perm (h : TaskRing L m (a :: rest)) :
    (m.owned L (a :: rest)).Perm
      (m.garbage rest ++ m.owned L (a :: rest.filter (!m.doomed ·))) := by
  have hsplit : (a :: rest).Perm (rest.filter m.doomed ++ a :: rest.filter (!m.doomed ·)) :=
    ((List.filter_append_perm m.doomed rest).symm.cons a).trans List.perm_middle.symm
  have hgarbage : (m.owned L (rest.filter m.doomed)).Perm (m.garbage rest) := by
    rw [Machine.owned, List.filter_filter, Machine.garbage]
    have hfilter : rest.filter (fun t => decide (t ≠ L.task0) && m.doomed t) =
        rest.filter m.doomed := by
      refine List.filter_congr fun t ht => ?_
      by_cases hdoom : m.doomed t = true
      · have hne := (h.heapAlloc t (List.mem_cons_of_mem _ ht)).mp (Machine.doomed_iff.mp hdoom).2
        simp [hdoom, hne]
      · simp [hdoom]
    rw [hfilter]
    exact List.Perm.flatMap_left _ fun t _ => .swap _ _ _
  refine ((hsplit.filter _).flatMap_right _).trans ?_
  rw [List.filter_append, List.flatMap_append]
  exact hgarbage.append_right _

/-- **Reaping.** `sched_reap` unlinks the dead allocated tasks and frees what they own, all of
which was live. -/
theorem TaskRing.reap (h : TaskRing L m (m.currentTask :: rest)) :
    ∃ next heap, schedReap L m = some (m.relink next heap, m.garbage rest) ∧
      TaskRing L (m.relink next heap) (m.currentTask :: rest.filter (!m.doomed ·)) ∧
      (m.heap.live L).Perm
        (m.garbage rest ++ m.owned L (m.currentTask :: rest.filter (!m.doomed ·))) := by
  have hlive := h.live.trans h.owned_perm
  obtain ⟨k, hk⟩ : ∃ k, ringFuel = k + 1 + rest.length := by
    have := h.length_lt
    rw [List.length_cons] at this
    exact ⟨ringFuel - 1 - rest.length, by omega⟩
  obtain ⟨next, hloop, hnext⟩ := schedReapLoop_spec (L := L) k (show IsRing m.nextOf ([] ++ _) from
    h.isRing) rfl
  obtain ⟨harena, hlive'⟩ := foldl_kfree_live h.arena hlive
  refine ⟨next, _, by rw [schedReap, hk]; exact hloop, ⟨hnext, ?_, ?_, harena, hlive'⟩, hlive⟩
  · rcases List.mem_cons.mp h.task0_mem with h0 | h0
    · exact h0 ▸ List.mem_cons_self
    · refine List.mem_cons_of_mem _ (List.mem_filter.mpr ⟨h0, ?_⟩)
      have halloc := (h.heapAlloc _ h.task0_mem).not.mpr (not_not.mpr rfl)
      rw [Machine.doomed]
      simp [halloc]
  · intro t ht
    refine h.heapAlloc t ?_
    rcases List.mem_cons.mp ht with rfl | ht
    · exact List.mem_cons_self
    · exact List.mem_cons_of_mem _ (List.mem_of_mem_filter ht)

/-! ### `sched_task_new` -/

/-- The machine with a new task at `c`, linked to nothing. -/
def Machine.withNewTask (m : Machine) (c stack entry userStackTop : ℕ) : Machine :=
  { m with nextPid := u32 (m.nextPid + 1) }.modifyTask c fun _ =>
    { Task.zero with
      stack := stack
      heapAlloc := true
      entry := entry
      userStackTop := userStackTop
      state := .ready
      pid := m.nextPid }

/-- Linking a new task behind the current one, as `sched_task_new` does it. -/
private theorem link_newTask {stack : ℕ} {heap' : KernelHeap} (hc : c ≠ m.currentTask) :
    ({ m.relink next heap with heap := heap', nextPid := u32 (m.nextPid + 1) }.modifyTask c fun _ =>
        { Task.zero with
          stack := stack
          heapAlloc := true
          entry := entry
          userStackTop := sp
          state := .ready
          pid := m.nextPid
          next := next m.currentTask }).modifyTask m.currentTask (fun t => { t with next := c }) =
      (m.withNewTask c stack entry sp).relink
        (Function.update (Function.update next c (next m.currentTask)) m.currentTask c) heap' := by
  refine congrArg (fun tasks => { m with
    tasks := tasks, heap := heap', nextPid := u32 (m.nextPid + 1) }) (funext fun x => ?_)
  by_cases hx : x = m.currentTask
  · simp [hx, Machine.withNewTask, Machine.modifyTask, Function.update_of_ne hc.symm]
  by_cases hxc : x = c
  · simp [hxc, hc, Machine.withNewTask, Machine.modifyTask]
  · simp [hx, hxc, Machine.withNewTask, Machine.modifyTask]

/-- A new task on two new allocations extends the ring. -/
private theorem TaskRing.insert {stack : ℕ} {kept : List ℕ} {heap' : KernelHeap}
    (h : TaskRing L (m.relink next heap) (m.currentTask :: kept))
    (hc : c ∉ m.currentTask :: kept) (hc0 : c ≠ L.task0) (harena : heap'.InArena L)
    (hlive : (heap'.live L).Perm (stack :: c :: heap.live L)) :
    TaskRing L ((m.withNewTask c stack entry sp).relink (Function.update
        (Function.update next c (next m.currentTask)) m.currentTask c) heap')
      (m.currentTask :: c :: kept) := by
  have hne : c ≠ m.currentTask := fun heq => hc (heq ▸ List.mem_cons_self)
  have hself : (m.withNewTask c stack entry sp).tasks c = _ := Machine.modifyTask_self _ c _
  have hother : ∀ t ∈ m.currentTask :: kept,
      (m.withNewTask c stack entry sp).tasks t = m.tasks t := fun t ht =>
    Machine.modifyTask_of_ne _ c _ fun htc => hc (htc ▸ ht)
  refine ⟨h.isRing.insert hc ?_ ?_ fun y hy => ?_, ?_, fun t ht => ?_, harena, ?_⟩
  · simp [Machine.nextOf, hne]
  · simp [Machine.nextOf]
  · have hyc : y ≠ c := fun heq => hc (heq ▸ List.mem_cons_of_mem _ hy)
    have hycur : y ≠ m.currentTask := fun heq =>
      (List.nodup_cons.mp h.isRing.nodup).1 (heq ▸ hy)
    simp [Machine.nextOf, hyc, hycur]
  · have := h.task0_mem
    simp only [List.mem_cons] at this ⊢
    tauto
  · have hcases : t = c ∨ t ∈ m.currentTask :: kept := by
      simp only [List.mem_cons] at ht ⊢
      tauto
    rcases hcases with rfl | ht
    · simp [hself, hc0]
    · simpa [hother t ht] using h.heapAlloc t ht
  · refine (hlive.trans ((h.live.cons c).cons stack)).trans ?_
    -- the new task owns its own block and its stack
    have howned : ((m.withNewTask c stack entry sp).owned L (c :: m.currentTask :: kept)) =
        c :: stack :: m.owned L (m.currentTask :: kept) := by
      rw [Machine.owned, Machine.owned, List.filter_cons_of_pos (by simpa using hc0),
        List.flatMap_cons, hself]
      refine congrArg (fun l => c :: stack :: l) (List.flatMap_congr fun t ht => ?_)
      rw [hother t (List.mem_of_mem_filter ht)]
    refine (List.Perm.swap _ _ _).trans (howned ▸ ?_)
    exact ((List.Perm.swap _ _ _).filter _).flatMap_right _

/-- **A new task.** `sched_task_new` fails, or it links a new task behind the current one; in
front of both it reaps. -/
theorem TaskRing.schedTaskNew (h : TaskRing L m (m.currentTask :: rest)) (entry sp : ℕ) :
    ∃ next heap,
      schedTaskNew L m entry sp = some (none, m.relink next heap) ∧
          TaskRing L (m.relink next heap) (m.currentTask :: rest.filter (!m.doomed ·)) ∨
        ∃ c stack, c ∉ m.currentTask :: rest.filter (!m.doomed ·) ∧
          ChalesOs.schedTaskNew L m entry sp =
            some (some c, (m.withNewTask c stack entry sp).relink next heap) ∧
          TaskRing L ((m.withNewTask c stack entry sp).relink next heap)
            (m.currentTask :: c :: rest.filter (!m.doomed ·)) := by
  obtain ⟨next, heap, hreap, hring, -⟩ := h.reap
  set kept := rest.filter (!m.doomed ·)
  rw [ChalesOs.schedTaskNew, hreap, Option.map_some]
  obtain ⟨r, heap₁, halloc⟩ : ∃ r heap₁, kmalloc L heap taskSize = (r, heap₁) := ⟨_, _, rfl⟩
  simp only [Machine.relink_heap, halloc]
  obtain ⟨harena₁, ⟨rfl, rfl⟩ | ⟨c, rfl, hlive₁, hc⟩⟩ :=
    kmalloc_live hring.arena (by decide) halloc
  · exact ⟨next, heap₁, Or.inl ⟨rfl, hring⟩⟩
  obtain ⟨r, heap₂, halloc'⟩ : ∃ r heap₂, kmalloc L heap₁ taskStackSize = (r, heap₂) :=
    ⟨_, _, rfl⟩
  simp only [halloc']
  obtain ⟨harena₂, ⟨rfl, rfl⟩ | ⟨stack, rfl, hlive₂, -⟩⟩ :=
    kmalloc_live harena₁ (by decide) halloc'
  · -- no stack: the block of the task is given back
    have hc₂ : c ∈ heap₂.live L := hlive₁.mem_iff.mpr List.mem_cons_self
    obtain ⟨harena₃, hlive₃⟩ := kfree_live harena₁ hc₂
    refine ⟨next, kfree L heap₂ c, Or.inl ⟨rfl, hring.isRing, hring.task0_mem, hring.heapAlloc,
      harena₃, ?_⟩⟩
    rw [Machine.relink_heap, hlive₃]
    refine ((hlive₁.erase c).trans ?_).trans hring.live
    rw [List.erase_cons_head]
  · -- a fresh block is in the heap, and not one that a task owns
    have hc' : c ∉ m.currentTask :: kept := fun hmem => by
      by_cases h0 : c = L.task0
      · have hlow := (harena₁.mem_live (hlive₁.mem_iff.mpr List.mem_cons_self)).1
        have := L.task0_lt_heapStart
        omega
      · exact hc (hring.mem_live hmem h0)
    have hne : c ≠ m.currentTask := fun heq => hc' (heq ▸ List.mem_cons_self)
    have hc0 : c ≠ L.task0 := fun heq => hc' (heq ▸ hring.task0_mem)
    refine ⟨_, heap₂, Or.inr ⟨c, stack, hc', ?_, hring.insert hc' hc0 harena₂ ?_⟩⟩
    · exact congrArg (fun m => some (some c, m)) (link_newTask hne)
    · exact hlive₂.trans (hlive₁.cons stack)

end ChalesOs
