import ChalesOs.Process.SavePool

/-!
# What a caller gets back

A program that starts another one is to find its image, its stack and the break again when the
other one has ended, whatever has run in between. The frame in the pool holds the part of the
image that the new program overlaps. The rest of the image, `Machine.Unsaved`, is saved by nobody
if a program further down overlaps it, so it comes back only if all of them stay off it. This is
not so for every run (`not_execRestores`), and it is so when every program that is started stays,
as far as the images of the waiting programs are concerned, inside the image of the one that
starts it (`execRestores_of_nested`).
-/

namespace ChalesOs

open PointerRing ByteMemory

variable {L : Layout} {m m' s₀ s s' : Machine} {rest callers pre post : List ℕ}
  {t p x k a lo hi : ℕ} {status : ℤ} {op : ProcOp}

/-! ### The property -/

/-- The running program writes its own image, the user stack and the user heap above the break it
was started with, and nothing else. -/
def Confined (L : Layout) (m : Machine) (op : ProcOp) : Prop :=
  ∀ a, op.Writes m a → (m.tasks m.currentTask).InImage a ∨ InUserStack a ∨
    L.InUserHeap a ∧ (m.tasks m.currentTask).frameBrk ≤ a

/-- In runs whose steps all meet `ok`: a program that has started another one finds its image, the
user stack and the break as it left them, when it becomes current again after having been blocked
all the time. -/
def ExecRestores (L : Layout) (ok : Machine → ProcOp → Prop) : Prop :=
  ∀ s₀ s₁ s₂ s₃ call op, (procSystem L).ReachableBy ok s₀ →
    (s₀.tasks s₀.currentTask).elfHi ≠ 0 →
    ok s₀ call → call.IsExec → (procSystem L).step s₀ call = some s₁ →
    (procSystem L).RunWithin ok (fun s => (s.tasks s₀.currentTask).state = .blocked) s₁ s₂ →
    ok s₂ op → (procSystem L).step s₂ op = some s₃ → s₃.currentTask = s₀.currentTask →
    (∀ a, (s₀.tasks s₀.currentTask).InImage a ∨ InUserStack a → s₃.mem a = s₀.mem a) ∧
      s₃.userBrk = s₀.userBrk

/-- A call of `exec_run` keeps to the caller: the caller's image is off the user heap, and the
program it loads meets the images of waiting programs in the caller's image or on the stack only. -/
def Nested (L : Layout) (m : Machine) : ProcOp → Prop
  | .exec fileData path _ _ =>
    (∀ a, (m.tasks m.currentTask).InImage a → ¬L.InUserHeap a) ∧
      ∀ a, ExecCovers L fileData m path a → ∀ x, Relation.TransGen m.ParentStep m.currentTask x →
        (m.tasks x).InImage a → (m.tasks m.currentTask).InImage a ∨ InUserStack a
  | _ => True

/-! ### Bytes nobody saves -/

/-- The bytes of the caller's image that the frame for a program with the extent `[lo, hi)` does
not hold. -/
def Machine.Unsaved (m : Machine) (lo hi a : ℕ) : Prop :=
  (m.tasks m.currentTask).InImage a ∧ ¬(lo ≤ a ∧ a < hi) ∧ ¬InUserStack a

/-- The bytes a task may change: those of its image, and when it ends, those its frame holds. -/
def Task.Touches (t : Task) (a : ℕ) : Prop :=
  t.InImage a ∨ (execStackBase ≤ a ∧ a < execStackBase + t.frameStackLen) ∨
    t.frameImgBase ≤ a ∧ a < t.frameImgBase + t.frameImgLen

/-- The end of an exit changes no byte that the task does not touch. -/
theorem finishExit_mem (h : ¬(m.tasks t).Touches a) :
    (finishExit m t status).mem a = m.mem a := by
  simp only [Task.Touches, not_or] at h
  rw [finishExit]
  split_ifs
  · show (execRestore m t).mem a = m.mem a
    rw [execRestore]
    split_ifs
    · exact frameRestore_of_not_mem h.2.1 h.2.2
    · rfl
  · rfl

/-- Killing tasks changes no byte that none of them touches. -/
theorem killAll_mem (h : ∀ x ∈ pre, ¬(m.tasks x).Touches a) : (killAll m pre).mem a = m.mem a := by
  induction pre generalizing m with
  | nil => rfl
  | cons t pre ih =>
    obtain ⟨ht, h⟩ := List.forall_mem_cons.mp h
    refine (ih (m := finishExit m t 9) fun x hx => ?_).trans (finishExit_mem ht)
    have hkeep : ((finishExit m t 9).tasks x).Touches a = (m.tasks x).Touches a :=
      finishExit_keeps (fun t => t.Touches a) (fun _ _ _ _ _ _ => rfl) x
    rw [hkeep]
    exact h x hx

/-- A new program touches its extent and the stack. -/
theorem ExecStarted.touches {c : ℕ} (hs : ExecStarted m m' lo hi c) (h : (m'.tasks c).Touches a) :
    lo ≤ a ∧ a < hi ∨ InUserStack a := by
  obtain ⟨stack, next, entry, sp, hchild⟩ := hs.child
  rw [hchild] at h
  by_cases hprog : (m.tasks m.currentTask).elfHi = 0
  · have hfr : m.frameFor lo hi = ⟨0, 0, 0⟩ := by
      rw [Machine.frameFor, frameShape, if_neg (not_not.mpr hprog)]
    simp only [Task.Touches, Task.InImage, hfr] at h
    omega
  · obtain ⟨h₁, h₂⟩ := frameShape_mem hprog lo hi a
    rcases h with h | h | h
    · exact Or.inl h
    · exact Or.inr (h₁.mp h)
    · exact Or.inl (h₂.mp h).2

/-! ### A waiting program -/

/-- The state in which `s` is to the machine `s₀`, whose current task has started a program with
the extent `[lo, hi)` in the task `k` and waits for it: the frame of `k` is the one `s₀` saved, and
no task above the waiting one touches a byte that this frame does not hold. -/
structure Waiting (s₀ s : Machine) (lo hi k : ℕ) (callers : List ℕ) : Prop where
  chain : ∃ pre post, s.currentTask :: callers = pre ++ k :: s₀.currentTask :: post ∧
    ∀ x ∈ pre ++ [k], ∀ a, s₀.Unsaved lo hi a → ¬(s.tasks x).Touches a
  image : ∀ a, (s.tasks s₀.currentTask).InImage a ↔ (s₀.tasks s₀.currentTask).InImage a
  hasFrame : (s.tasks k).hasFrame = true
  frameOff : (s.tasks k).frameOff = s₀.execPoolUsed
  frameEnd : (s.tasks k).frameEnd = s₀.usedWith lo hi
  frameShape : (⟨(s.tasks k).frameStackLen, (s.tasks k).frameImgBase, (s.tasks k).frameImgLen⟩ :
    FrameShape) = s₀.frameFor lo hi
  frameBrk : (s.tasks k).frameBrk = s₀.userBrk
  execPool : ∀ i, i < s₀.usedWith lo hi → s.execPool i = s₀.poolWith lo hi i
  mem : ∀ a, s₀.Unsaved lo hi a → s.mem a = s₀.mem a

/-- The state behind the start. -/
theorem ExecStarted.waiting {c : ℕ} (hs : ExecStarted s₀ s lo hi c)
    (hnew : c ∉ s₀.currentTask :: callers) :
    Waiting s₀ s lo hi c (s₀.currentTask :: callers) := by
  obtain ⟨stack, next, entry, sp, hchild⟩ := hs.child
  refine ⟨⟨[], callers, by rw [hs.currentTask]; rfl, fun x hx a ha htouch => ?_⟩, fun a => ?_, ?_,
    ?_, ?_, ?_, ?_, fun i _ => ?_, fun a ha => hs.mem a ha.2.2 ha.2.1⟩
  · obtain rfl := List.mem_singleton.mp hx
    exact (hs.touches htouch).elim ha.2.1 ha.2.2
  · rw [hs.keeps (fun t => t.InImage a) (fun _ _ _ => rfl) fun heq => hnew (heq ▸ by simp)]
  · rw [hchild]
  · rw [hchild]
  · rw [hchild, Task.frameEnd, Machine.usedWith, Nat.add_assoc]
  · rw [hchild]
  · rw [hchild]
  · rw [hs.execPool]

/-- The frame of `k` lies in the part of the pool that is in use. -/
theorem Waiting.used_le (h : Waiting s₀ s lo hi k callers) (hpool : Pool L s callers) :
    s₀.usedWith lo hi ≤ s.execPoolUsed := by
  obtain ⟨pre, post, hchain, -⟩ := h.chain
  obtain ⟨fs, hfs_chain, hfs⟩ := hpool.stack
  have hk : k ∈ fs := by
    have hmem : k ∈ fs ++ [L.task0] := by
      rw [← hfs_chain, hchain]
      simp
    refine (List.mem_append.mp hmem).resolve_right fun h0 => ?_
    have hframe := h.hasFrame
    rw [List.mem_singleton.mp h0, hpool.task0] at hframe
    exact Bool.noConfusion hframe
  exact h.frameEnd ▸ hfs.frameEnd_le hk

/-- What of a task does not change between its start and its end. -/
def Task.fixed (t : Task) : Task :=
  { t with
    next := 0
    state := .running
    zombieValid := false
    zombiePid := 0
    zombieStatus := 0
    hasFrame := false }

/-- A task touches the same bytes as long as its fixed part is the same. -/
theorem touches_iff_of_fixed {t t' : Task} (h : t'.fixed = t.fixed) :
    t'.Touches a ↔ t.Touches a :=
  iff_of_eq (congrArg (fun t => t.Touches a) h)

/-- The state depends on the fixed part of the tasks, the frame of `k`, and the bytes at stake. -/
theorem Waiting.transport {callers' : List ℕ} (h : Waiting s₀ s lo hi k callers)
    (hchain : ∃ pre post, s'.currentTask :: callers' = pre ++ k :: s₀.currentTask :: post ∧
      ∀ x ∈ pre ++ [k], ∀ a, s₀.Unsaved lo hi a → ¬(s'.tasks x).Touches a)
    (hfixed : ∀ x ∈ s.currentTask :: callers, (s'.tasks x).fixed = (s.tasks x).fixed)
    (hframe : (s'.tasks k).hasFrame = true)
    (hpool : ∀ i, i < s₀.usedWith lo hi → s'.execPool i = s.execPool i)
    (hmem : ∀ a, s₀.Unsaved lo hi a → s'.mem a = s.mem a) : Waiting s₀ s' lo hi k callers' := by
  obtain ⟨pre, post, hold, -⟩ := h.chain
  have hk := hfixed k (by simp [hold])
  have hp := hfixed s₀.currentTask (by simp [hold])
  exact
    { chain := hchain
      image := fun a => Iff.trans (iff_of_eq (congrArg (fun t => t.InImage a) hp)) (h.image a)
      hasFrame := hframe
      frameOff := (congrArg Task.frameOff hk).trans h.frameOff
      frameEnd := (congrArg Task.frameEnd hk).trans h.frameEnd
      frameShape := by
        have hshape := congrArg (fun t : Task =>
          (⟨t.frameStackLen, t.frameImgBase, t.frameImgLen⟩ : FrameShape)) hk
        exact hshape.trans h.frameShape
      frameBrk := (congrArg Task.frameBrk hk).trans h.frameBrk
      execPool := fun i hi => (hpool i hi).trans (h.execPool i hi)
      mem := fun a ha => (hmem a ha).trans (h.mem a ha) }

/-- The running program touches no byte at stake. -/
theorem Waiting.current (h : Waiting s₀ s lo hi k callers) (ha : s₀.Unsaved lo hi a) :
    ¬(s.tasks s.currentTask).Touches a := by
  obtain ⟨pre, post, hchain, hspare⟩ := h.chain
  exact hspare _ (current_mem hchain) a ha

/-- An operation that starts and ends nothing keeps the state. -/
theorem Waiting.quiet (h : Waiting s₀ s lo hi k callers) (hq : Quiet s s' op)
    (hconf : Confined L s op)
    (hheap : ∀ a, (s₀.tasks s₀.currentTask).InImage a → ¬L.InUserHeap a) :
    Waiting s₀ s' lo hi k callers := by
  have hfixed : ∀ x, (s'.tasks x).fixed = (s.tasks x).fixed := hq.keeps Task.fixed fun _ _ => rfl
  obtain ⟨pre, post, hchain, hspare⟩ := h.chain
  refine h.transport ⟨pre, post, hq.currentTask ▸ hchain, fun x hx a ha => ?_⟩
    (fun x _ => hfixed x) ((hq.keeps Task.hasFrame (fun _ _ => rfl) k).trans h.hasFrame)
    (fun i _ => by rw [hq.execPool]) fun a ha => hq.mem a fun hwrites => ?_
  · rw [touches_iff_of_fixed (hfixed x)]
    exact hspare x hx a ha
  · rcases hconf a hwrites with himage | hstack | hin
    · exact h.current ha (Or.inl himage)
    · exact ha.2.2 hstack
    · exact hheap a ha.1 hin.1

/-- A failed `exec_run` that keeps to its caller keeps the state. -/
theorem Waiting.failed {covers : ℕ → Prop} (h : Waiting s₀ s lo hi k callers)
    (hpool : Pool L s callers) (hf : ExecFailed s s' covers)
    (hcovers : ∀ a, s₀.Unsaved lo hi a → ¬covers a) : Waiting s₀ s' lo hi k callers := by
  have hfixed : ∀ x, (s'.tasks x).fixed = (s.tasks x).fixed := hf.keeps Task.fixed fun _ _ => rfl
  obtain ⟨pre, post, hchain, hspare⟩ := h.chain
  refine h.transport ⟨pre, post, hf.currentTask ▸ hchain, fun x hx a ha => ?_⟩
    (fun x _ => hfixed x) ((hf.keeps Task.hasFrame (fun _ _ => rfl) k).trans h.hasFrame)
    (fun i hi => hf.execPool i (hi.trans_le (h.used_le hpool)))
    fun a ha => hf.mem a ha.2.2 (hcovers a ha)
  rw [touches_iff_of_fixed (hfixed x)]
  exact hspare x hx a ha

/-- A start that keeps to its caller keeps the state. -/
theorem Waiting.started {lo' hi' c : ℕ} (h : Waiting s₀ s lo hi k callers)
    (hpool : Pool L s callers) (hs : ExecStarted s s' lo' hi' c)
    (hnew : c ∉ s.currentTask :: callers)
    (hcovers : ∀ a, s₀.Unsaved lo hi a → ¬(lo' ≤ a ∧ a < hi')) :
    Waiting s₀ s' lo hi k (s.currentTask :: callers) := by
  have hne : ∀ {x}, x ∈ s.currentTask :: callers → x ≠ c := fun hx heq => hnew (heq ▸ hx)
  have hfixed : ∀ x ∈ s.currentTask :: callers, (s'.tasks x).fixed = (s.tasks x).fixed :=
    fun x hx => hs.keeps Task.fixed (fun _ _ _ => rfl) (hne hx)
  obtain ⟨pre, post, hchain, hspare⟩ := h.chain
  have hold : ∀ {x}, x ∈ pre ++ [k] → x ∈ s.currentTask :: callers := fun {x} hx => by
    rw [hchain]
    rcases List.mem_append.mp hx with hx | hx
    · exact List.mem_append_left _ hx
    · obtain rfl := List.mem_singleton.mp hx
      simp
  refine h.transport ⟨c :: pre, post, ?_, fun x hx a ha => ?_⟩ hfixed
    ((hs.keeps Task.hasFrame (fun _ _ _ => rfl) (hne (hold (by simp)))).trans h.hasFrame)
    (fun i hi => ?_) fun a ha => hs.mem a ha.2.2 (hcovers a ha)
  · rw [hs.currentTask, hchain, List.cons_append]
  · rw [List.cons_append, List.mem_cons] at hx
    rcases hx with rfl | hx
    · exact fun htouch => (hs.touches htouch).elim (hcovers a ha) ha.2.2
    · rw [touches_iff_of_fixed (hfixed x (hold hx))]
      exact hspare x hx a ha
  · rw [hs.execPool]
    exact frameSave_of_lt (hi.trans_le (h.used_le hpool))

/-- An exit changes no byte that none of the tasks that end touches. -/
theorem exit_mem (h : ∀ x ∈ pre ++ [t], ¬(m.tasks x).Touches a) :
    (finishExit (killAll m pre) t status).mem a = m.mem a := by
  have hkeep : ((killAll m pre).tasks t).Touches a = (m.tasks t).Touches a :=
    killAll_keeps_task (fun t => t.Touches a) (fun _ _ _ _ _ _ => rfl) t
  rw [finishExit_mem (hkeep ▸ h t (by simp)), killAll_mem fun x hx => h x (by simp [hx])]

/-- `k` is the last of the tasks above the waiting one, none of which touches a byte at stake. -/
theorem Waiting.above {young : List ℕ} (h : Waiting s₀ s lo hi k callers)
    (hprocs : Procs L s rest callers)
    (hchain : s.currentTask :: callers = young ++ s₀.currentTask :: post) :
    (∃ pre, young = pre ++ [k]) ∧
      ∀ x ∈ young, ∀ a, s₀.Unsaved lo hi a → ¬(s.tasks x).Touches a := by
  obtain ⟨pre₀, post₀, hchain₀, hspare⟩ := h.chain
  have hnd : (young ++ s₀.currentTask :: post).Nodup := hchain ▸ hprocs.nodup
  have heq : young ++ s₀.currentTask :: post =
      (pre₀ ++ [k]) ++ s₀.currentTask :: post₀ := by
    simpa using hchain.symm.trans hchain₀
  -- the waiting task occurs once, so both lists in front of it are the same
  obtain ⟨rfl, -, -⟩ := (List.append_cons_inj_of_notMem
    (fun hin => (List.nodup_append.mp hnd).2.2 _ hin _ List.mem_cons_self rfl)
    (List.nodup_cons.mp (List.nodup_append.mp hnd).2.1).1).mp heq
  exact ⟨⟨pre₀, rfl⟩, hspare⟩

/-- The end of a task above `k` keeps the state, when the waiting task stays blocked. -/
theorem Waiting.finish (h : Waiting s₀ s lo hi k callers) (hprocs : Procs L s rest callers)
    (hchain : s.currentTask :: callers = pre ++ t :: p :: post)
    (hblocked : ((exitTo s pre t p status).tasks s₀.currentTask).state = .blocked) :
    Waiting s₀ (exitTo s pre t p status) lo hi k post := by
  have hfixed : ∀ x, ((exitTo s pre t p status).tasks x).fixed = (s.tasks x).fixed :=
    exitTo_keeps Task.fixed fun _ _ _ _ _ _ => rfl
  -- the waiting task is neither among those that end nor the one that runs again
  have hp : s₀.currentTask ≠ p := by
    intro heq
    rw [heq, hprocs.exitTo_parent hchain] at hblocked
    exact TaskState.noConfusion hblocked
  have hended : s₀.currentTask ∉ pre ++ [t] := by
    intro hmem
    rw [hprocs.exitTo_dead hchain (Or.inl hmem) hp] at hblocked
    exact TaskState.noConfusion hblocked
  have hmem : s₀.currentTask ∈ post := by
    have : s₀.currentTask ∈ pre ++ t :: p :: post := by
      obtain ⟨pre₀, post₀, hchain₀, -⟩ := h.chain
      rw [← hchain, hchain₀]
      simp
    simp only [List.mem_append, List.mem_cons, List.not_mem_nil, or_false, not_or] at this hended
    tauto
  -- so `k` is not among them either
  obtain ⟨u, w, rfl⟩ := List.append_of_mem hmem
  have hsplit : s.currentTask :: callers = (pre ++ t :: p :: u) ++ s₀.currentTask :: w := by
    rw [hchain, List.append_assoc, List.cons_append, List.cons_append]
  obtain ⟨⟨pre₀, hyoung⟩, hspare⟩ := h.above hprocs hsplit
  obtain ⟨u', l, hu⟩ := (List.eq_nil_or_concat (p :: u)).resolve_left (by simp)
  rw [List.concat_eq_append] at hu
  rw [hu, ← List.cons_append, ← List.append_assoc] at hyoung hspare
  obtain ⟨rfl, hl⟩ := List.append_inj' hyoung rfl
  obtain rfl := List.singleton_inj.mp hl
  have hpost : p :: (u ++ s₀.currentTask :: w) = u' ++ l :: s₀.currentTask :: w := by
    rw [← List.cons_append, hu, List.append_assoc]
    rfl
  obtain ⟨hlcall, hlpre, hlt⟩ := hprocs.mem_callers hchain (x := l) (hpost ▸ by simp)
  -- what ended was above `k`, so the frame and the bytes at stake are as before
  refine h.transport ⟨u', w, hpost, fun x hx a ha => ?_⟩ (fun x _ => hfixed x)
    ((exitTo_hasFrame hlpre hlt).trans h.hasFrame) (fun i _ => ?_) fun a ha => ?_
  · rw [touches_iff_of_fixed (hfixed x)]
    refine hspare x ?_ a ha
    rw [List.append_assoc, List.cons_append]
    exact List.mem_append_right _ (List.mem_cons_of_mem _ hx)
  · rw [hprocs.exitTo_eq hchain]
    exact congrFun (exit_keeps_machine Machine.execPool fun _ _ _ _ _ => rfl) i
  · rw [hprocs.exitTo_eq hchain]
    refine exit_mem fun x hx => hspare x ?_ a ha
    rcases List.mem_append.mp hx with hx | hx
    · simp [hx]
    · simp [List.mem_singleton.mp hx]

/-- **The return.** When the waiting task runs again, its image, the stack and the break are as it
left them. -/
theorem Waiting.returns (h : Waiting s₀ s lo hi k callers) (hprocs : Procs L s rest callers)
    (hprog : (s₀.tasks s₀.currentTask).elfHi ≠ 0)
    (hchain : s.currentTask :: callers = pre ++ t :: s₀.currentTask :: post) :
    (∀ a, (s₀.tasks s₀.currentTask).InImage a ∨ InUserStack a →
        (exitTo s pre t s₀.currentTask status).mem a = s₀.mem a) ∧
      (exitTo s pre t s₀.currentTask status).userBrk = s₀.userBrk := by
  -- the task that ends is the one the program was started in
  have hsplit : s.currentTask :: callers = (pre ++ [t]) ++ s₀.currentTask :: post := by
    rw [hchain, List.append_assoc, List.singleton_append]
  obtain ⟨⟨pre₀, hyoung⟩, hspare⟩ := h.above hprocs hsplit
  obtain ⟨rfl, hk⟩ := List.append_inj' hyoung rfl
  obtain rfl := List.singleton_inj.mp hk
  obtain ⟨hparent, hframe⟩ := hprocs.killAll_frame hchain h.hasFrame
  obtain ⟨hmem, hbrk, -⟩ := finishExit_restores hparent hframe status
  have hfixed : ((killAll s pre).tasks t).fixed = (s.tasks t).fixed :=
    killAll_keeps_task Task.fixed (fun _ _ _ _ _ _ => rfl) t
  have hpool : (killAll s pre).execPool = s.execPool :=
    killAll_keeps Machine.execPool fun _ _ => finishExit_keeps_machine _ fun _ _ _ _ _ => rfl
  rw [hprocs.exitTo_eq hchain]
  refine ⟨fun a ha => ?_, hbrk.trans ((congrArg Task.frameBrk hfixed).trans h.frameBrk)⟩
  refine (congrFun hmem a).trans ?_
  set fr := s₀.frameFor lo hi with hfr
  have hoff : ((killAll s pre).tasks t).frameOff = s₀.execPoolUsed :=
    (congrArg Task.frameOff hfixed).trans h.frameOff
  have hlen : ((killAll s pre).tasks t).frameStackLen = fr.stackLen :=
    (congrArg Task.frameStackLen hfixed).trans (congrArg FrameShape.stackLen h.frameShape)
  have hbase : ((killAll s pre).tasks t).frameImgBase = fr.imgBase :=
    (congrArg Task.frameImgBase hfixed).trans (congrArg FrameShape.imgBase h.frameShape)
  have himg : ((killAll s pre).tasks t).frameImgLen = fr.imgLen :=
    (congrArg Task.frameImgLen hfixed).trans (congrArg FrameShape.imgLen h.frameShape)
  -- the frame that is put back is the one that was saved
  rw [hpool, hoff, hlen, hbase, himg]
  obtain ⟨hstack, himage⟩ := frameShape_mem hprog lo hi a
  have hused :
      s₀.usedWith lo hi = s₀.execPoolUsed + (align16 fr.stackLen + align16 fr.imgLen) := rfl
  have hle₁ := le_align16 fr.stackLen
  have hle₂ := le_align16 fr.imgLen
  by_cases hsaved : execStackBase ≤ a ∧ a < execStackBase + fr.stackLen ∨
      fr.imgBase ≤ a ∧ a < fr.imgBase + fr.imgLen
  · refine frameRestore_of_saved (fun i hi => ?_) (fun i hi => ?_) hsaved
    · rw [h.execPool _ (by omega)]
      exact frameSave_of_mem.1 hi
    · rw [h.execPool _ (by omega)]
      exact frameSave_of_mem.2 hi
  · -- a byte that the frame does not hold has never changed
    rw [not_or] at hsaved
    have hnostack := mt hstack.mpr hsaved.1
    have hin := ha.resolve_right hnostack
    have hunsaved : s₀.Unsaved lo hi a :=
      ⟨hin, fun hcov => hsaved.2 (himage.mpr ⟨hin, hcov⟩), hnostack⟩
    rw [frameRestore_of_not_mem hsaved.1 hsaved.2,
      killAll_mem fun x hx => hspare x (List.mem_append_left _ hx) a hunsaved, h.mem a hunsaved]

/-! ### Runs -/

/-- A program that keeps to its caller covers no byte at stake. -/
theorem Waiting.not_covers {covers : ℕ → Prop} (h : Waiting s₀ s lo hi k callers)
    (hprocs : Procs L s rest callers)
    (hnested : ∀ a, covers a → ∀ x, Relation.TransGen s.ParentStep s.currentTask x →
      (s.tasks x).InImage a → (s.tasks s.currentTask).InImage a ∨ InUserStack a)
    (ha : s₀.Unsaved lo hi a) : ¬covers a := by
  intro hcov
  obtain ⟨pre, post, hchain, -⟩ := h.chain
  obtain ⟨hcall, -, -⟩ := hprocs.mem_callers hchain (x := s₀.currentTask) List.mem_cons_self
  rcases hnested a hcov _ (hprocs.ancestor hcall) ((h.image a).mpr ha.1) with himage | hstack
  · exact h.current ha (Or.inl himage)
  · exact ha.2.2 hstack

/-- The state of a run in which the current task of `s₀` waits. -/
def WaitingRun (L : Layout) (s₀ s : Machine) : Prop :=
  s.halted = true ∨ ∃ lo hi k rest callers, Procs L s rest callers ∧ Pool L s callers ∧
    Waiting s₀ s lo hi k callers

/-- The call that makes the task wait. -/
private theorem waitingRun_of_call (hprocs : Procs L s₀ rest callers) (hpool : Pool L s₀ callers)
    (hmove : ProcMove L s₀ callers op s)
    (hblocked : (s.tasks s₀.currentTask).state = .blocked) : WaitingRun L s₀ s := by
  cases hmove with
  | halt hhalt _ => exact Or.inl hhalt
  | exec hout =>
    cases hout with
    | failed hf _ =>
      rw [hf.keeps Task.state fun _ _ => rfl, hprocs.running] at hblocked
      exact TaskState.noConfusion hblocked
    | started hs _ hprocs' =>
      have hnew := hs.not_mem hprocs'
      exact Or.inr ⟨_, _, _, _, _, hprocs', hpool.started hs hnew, hs.waiting hnew⟩
  | finish hchain _ =>
    obtain ⟨hp, -, -⟩ := hprocs.mem_callers hchain List.mem_cons_self
    have hne : s₀.currentTask ≠ _ := fun heq =>
      (List.nodup_cons.mp hprocs.nodup).1 (heq ▸ hp)
    rw [hprocs.exitTo_dead hchain (Or.inl (current_mem hchain)) hne] at hblocked
    exact TaskState.noConfusion hblocked
  | quiet hq =>
    rw [hq.keeps Task.state fun _ _ => rfl, hprocs.running] at hblocked
    exact TaskState.noConfusion hblocked

/-- A step while the task waits. -/
private theorem WaitingRun.step (h : WaitingRun L s₀ s)
    (hheap : ∀ a, (s₀.tasks s₀.currentTask).InImage a → ¬L.InUserHeap a)
    (hblocked : (s'.tasks s₀.currentTask).state = .blocked)
    (hconf : Confined L s op) (hnested : Nested L s op)
    (hstep : (procSystem L).step s op = some s') : WaitingRun L s₀ s' := by
  rcases h with hhalt | ⟨lo, hi, k, rest, callers, hprocs, hpool, hwait⟩
  · rw [halted_of_step hstep] at hhalt
    exact Bool.noConfusion hhalt
  cases procStep_move hprocs hstep with
  | halt hhalt _ => exact Or.inl hhalt
  | exec hout =>
    have hcovers := fun a => hwait.not_covers (a := a) hprocs hnested.2
    cases hout with
    | failed hf hprocs' =>
      exact Or.inr ⟨lo, hi, k, _, _, hprocs', hpool.failed hf, hwait.failed hpool hf hcovers⟩
    | started hs hcov hprocs' =>
      have hnew := hs.not_mem hprocs'
      exact Or.inr ⟨lo, hi, k, _, _, hprocs', hpool.started hs hnew,
        hwait.started hpool hs hnew fun a ha hin => hcovers a ha (hcov a hin.1 hin.2)⟩
  | finish hchain hprocs' =>
    exact Or.inr ⟨lo, hi, k, _, _, hprocs', hpool.finish hprocs hchain,
      hwait.finish hprocs hchain hblocked⟩
  | quiet hq =>
    exact Or.inr ⟨lo, hi, k, _, _, hprocs.quiet hq, hpool.quiet hq, hwait.quiet hq hconf hheap⟩

/-- **Exec and wait.** When every program stays inside its caller's image as far as the images of
waiting programs are concerned, a program finds its image, the stack and the break again when the
program it has started has ended, at any depth and whatever has run meanwhile. -/
theorem execRestores_of_nested (L : Layout) :
    ExecRestores L fun m op => Confined L m op ∧ Nested L m op := by
  intro s₀ s₁ s₂ s₃ call op hreach hprog hok hcall hstep hrun hok' hlast hcur
  obtain ⟨rest, callers, hprocs, hpool⟩ := pool_of_reachable hreach (halted_of_step hstep)
  have hheap : ∀ a, (s₀.tasks s₀.currentTask).InImage a → ¬L.InUserHeap a := by
    cases call with
    | exec => exact hok.2.1
    | _ => exact hcall.elim
  have hwait₁ : WaitingRun L s₀ s₁ :=
    waitingRun_of_call hprocs hpool (procStep_move hprocs hstep) hrun.1
  have hwait₂ : WaitingRun L s₀ s₂ := hrun.invariant hwait₁
    fun a i b ha _ hb hok hstep => ha.step hheap hb hok.1 hok.2 hstep
  have hblocked := hrun.last
  rcases hwait₂ with hhalt | ⟨lo, hi, k, rest, callers, hprocs, hpool, hwait⟩
  · rw [halted_of_step hlast] at hhalt
    exact Bool.noConfusion hhalt
  have hne : s₂.currentTask ≠ s₀.currentTask := by
    intro heq
    rw [← heq, hprocs.running] at hblocked
    exact TaskState.noConfusion hblocked
  -- of the moves only the end of a task makes the waiting one current again
  cases procStep_move hprocs hlast with
  | halt _ hsame => exact absurd (hsame.symm.trans hcur) hne
  | exec hout =>
    cases hout with
    | failed hf _ => exact absurd (hf.currentTask.symm.trans hcur) hne
    | started hs _ hprocs' =>
      obtain ⟨pre, post, hchain, -⟩ := hwait.chain
      refine absurd ?_ (hs.not_mem hprocs')
      rw [← hs.currentTask, hcur, hchain]
      simp
  | finish hchain _ =>
    rw [exitTo_currentTask] at hcur
    subst hcur
    exact hwait.returns hprocs hprog hchain
  | quiet hq => exact absurd (hq.currentTask.symm.trans hcur) hne

/-! ### Three levels -/

/-- Three nested programs, the inner two of which end again: the machines in which the first one
runs, the second one runs, the third one runs, the second one runs again, and the first one. -/
def threeLevels (first second third : ProcOp) :
    Option (Machine × Machine × Machine × Machine × Machine) := do
  let s₀ ← (procSystem Layout.sample).step bootMachine first
  let s₁ ← (procSystem Layout.sample).step s₀ second
  let s ← (procSystem Layout.sample).step s₁ third
  let s₂ ← (procSystem Layout.sample).step s (.exit 0)
  let s₃ ← (procSystem Layout.sample).step s₂ (.exit 0)
  some (s₀, s₁, s, s₂, s₃)

/-- In such a run the property is about the first machine and the last. -/
private theorem ExecRestores.threeLevels {ok : Machine → ProcOp → Prop}
    (h : ExecRestores Layout.sample ok) {first second third : ProcOp} {s₀ s₁ s s₂ s₃ : Machine}
    (hrun : threeLevels first second third = some (s₀, s₁, s, s₂, s₃))
    (hfirst : ok bootMachine first) (hsecond : ok s₀ second) (hthird : ok s₁ third)
    (hexit : ∀ s, ok s (.exit 0)) (hcall : second.IsExec)
    (hprog : (s₀.tasks s₀.currentTask).elfHi ≠ 0)
    (hb₁ : (s₁.tasks s₀.currentTask).state = .blocked)
    (hb : (s.tasks s₀.currentTask).state = .blocked)
    (hb₂ : (s₂.tasks s₀.currentTask).state = .blocked)
    (hcur : s₃.currentTask = s₀.currentTask) :
    (∀ a, (s₀.tasks s₀.currentTask).InImage a ∨ InUserStack a → s₃.mem a = s₀.mem a) ∧
      s₃.userBrk = s₀.userBrk := by
  simp only [ChalesOs.threeLevels, Option.bind_eq_bind, Option.bind_eq_some_iff,
    Option.some.injEq, Prod.mk.injEq] at hrun
  obtain ⟨_, h₀, _, h₁, _, h₂, _, h₃, _, h₄, rfl, rfl, rfl, rfl, rfl⟩ := hrun
  refine h _ _ _ _ second (.exit 0) (.step (.start ⟨_, _, rfl⟩) hfirst h₀) hprog hsecond hcall h₁
    ⟨hb₁, ?_⟩ (hexit _) h₄ hcur
  exact (Relation.ReflTransGen.single ⟨⟨third, hthird, h₂⟩, hb⟩).tail
    ⟨⟨.exit 0, hexit _, h₃⟩, hb₂⟩

/-- Ends of programs and starts write nothing themselves. -/
private theorem confined_of_not_writes (h : ∀ a, ¬op.Writes m a) : Confined L m op :=
  fun a ha => absurd ha (h a)

/-- **Not every run.** Programs that write only what is theirs do not get their images back when
the third program is larger than the second: nobody saves the bytes by which it is larger. -/
theorem not_execRestores :
    ¬∀ L : Layout, (∀ a, InUserStack a → ¬L.InKernel a) → ExecRestores L (Confined L) := by
  intro hclaim
  have h := hclaim Layout.sample fun a hstack hkernel => by
    have hbase : 0x2FB000 ≤ a := hstack.1
    have hend : a < 0x2B9000 := hkernel.2
    omega
  have heval : (threeLevels (execAt 0x300000 64 [1, 2]) (execAt 0x300000 16 [3])
      (execAt 0x300000 64 (List.replicate 64 7))).any (fun r => decide (
        (r.1.tasks r.1.currentTask).elfLo = 0x300000 ∧
        (r.1.tasks r.1.currentTask).elfHi = 0x300040 ∧
        (r.2.1.tasks r.1.currentTask).state = .blocked ∧
        (r.2.2.1.tasks r.1.currentTask).state = .blocked ∧
        (r.2.2.2.1.tasks r.1.currentTask).state = .blocked ∧
        r.2.2.2.2.currentTask = r.1.currentTask ∧
        r.1.mem 0x300020 = 0 ∧ r.2.2.2.2.mem 0x300020 = 7)) = true := by
    decide +kernel
  obtain ⟨⟨s₀, s₁, s, s₂, s₃⟩, hrun, hlo, hhi, hb₁, hb, hb₂, hcur, hbefore, hafter⟩ :=
    exists_of_any heval
  dsimp only at hlo hhi hb₁ hb hb₂ hcur hbefore hafter
  have hmem := (h.threeLevels hrun (confined_of_not_writes fun _ => id)
    (confined_of_not_writes fun _ => id) (confined_of_not_writes fun _ => id)
    (fun _ => confined_of_not_writes fun _ => id) trivial (by omega) hb₁ hb hb₂ hcur).1 0x300020
    (Or.inl ⟨by omega, by omega⟩)
  rw [hbefore, hafter] at hmem
  exact absurd hmem (by decide)

/-- A program with the extent of its caller's image keeps to the caller. -/
private theorem nested_of_same_extent {vaddr memsz : ℕ} {payload : List UInt8} {mem : Mem}
    (hext : elfExtent (.ofBytes (oneSegmentElf vaddr memsz payload)) mem = some (some (lo, hi)))
    (hlo : (m.tasks m.currentTask).elfLo = lo) (hhi : (m.tasks m.currentTask).elfHi = hi)
    (hheap : L.userHeapEnd ≤ lo) : Nested L m (execAt vaddr memsz payload) := by
  refine ⟨fun a ha hin => ?_, fun a hcov x _ _ => Or.inl ?_⟩
  · have h₁ := ha.1
    have h₂ := hin.2
    omega
  · obtain ⟨bytes, lo', hi', entry, st, hbytes, hext', -, h₁, h₂⟩ := hcov
    obtain rfl : oneSegmentElf vaddr memsz payload = bytes := Option.some.inj hbytes
    rw [elfExtent_ofBytes _ _ mem, hext] at hext'
    simp only [Option.some.injEq, Prod.mk.injEq] at hext'
    exact ⟨by omega, by omega⟩

/-- `execRestores_of_nested` on three nested programs of the same extent. -/
theorem execRestores_sample : ∃ s₀ s₁ s s₂ s₃,
    threeLevels (execAt 0x300000 64 [1, 2]) (execAt 0x300000 64 [3])
      (execAt 0x300000 64 (List.replicate 64 7)) = some (s₀, s₁, s, s₂, s₃) ∧
    (∀ a, (s₀.tasks s₀.currentTask).InImage a ∨ InUserStack a → s₃.mem a = s₀.mem a) ∧
      s₃.userBrk = s₀.userBrk := by
  have heval : (threeLevels (execAt 0x300000 64 [1, 2]) (execAt 0x300000 64 [3])
      (execAt 0x300000 64 (List.replicate 64 7))).any (fun r => decide (
        (r.1.tasks r.1.currentTask).elfLo = 0x300000 ∧
        (r.1.tasks r.1.currentTask).elfHi = 0x300040 ∧
        (r.2.1.tasks r.2.1.currentTask).elfLo = 0x300000 ∧
        (r.2.1.tasks r.2.1.currentTask).elfHi = 0x300040 ∧
        (r.2.1.tasks r.1.currentTask).state = .blocked ∧
        (r.2.2.1.tasks r.1.currentTask).state = .blocked ∧
        (r.2.2.2.1.tasks r.1.currentTask).state = .blocked ∧
        r.2.2.2.2.currentTask = r.1.currentTask)) = true := by
    decide +kernel
  obtain ⟨⟨s₀, s₁, s, s₂, s₃⟩, hrun, hlo, hhi, hlo₁, hhi₁, hb₁, hb, hb₂, hcur⟩ :=
    exists_of_any heval
  dsimp only at hlo hhi hlo₁ hhi₁ hb₁ hb hb₂ hcur
  have hext₁ : elfExtent (.ofBytes (oneSegmentElf 0x300000 64 [3])) (fun _ => 0) =
      some (some (0x300000, 0x300040)) := by decide +kernel
  have hext₂ : elfExtent (.ofBytes (oneSegmentElf 0x300000 64 (List.replicate 64 7)))
      (fun _ => 0) = some (some (0x300000, 0x300040)) := by decide +kernel
  have hfirst : Nested Layout.sample bootMachine (execAt 0x300000 64 [1, 2]) := by
    refine ⟨fun a ha => ?_, fun a _ x hx => ?_⟩
    · exact absurd ha.2 (Nat.not_lt_zero a)
    · obtain ⟨y, ⟨hy, hparent⟩, -⟩ := Relation.TransGen.head'_iff.mp hx
      exact absurd hparent.symm hy
  exact ⟨s₀, s₁, s, s₂, s₃, hrun, (execRestores_of_nested Layout.sample).threeLevels hrun
    ⟨confined_of_not_writes fun _ => id, hfirst⟩
    ⟨confined_of_not_writes fun _ => id, nested_of_same_extent hext₁ hlo hhi (by decide)⟩
    ⟨confined_of_not_writes fun _ => id, nested_of_same_extent hext₂ hlo₁ hhi₁ (by decide)⟩
    (fun _ => ⟨confined_of_not_writes fun _ => id, trivial⟩) trivial (by omega) hb₁ hb hb₂ hcur⟩

end ChalesOs
