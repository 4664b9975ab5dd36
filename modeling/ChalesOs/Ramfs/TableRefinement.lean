import ChalesOs.Ramfs.Lookup
import ChalesOs.Ramfs.TableOps

/-!
# Records for bytes

`b.Holds P s` says that the bytes of `b` are the records of `s`, and `b.Reads s` that lookups see
no difference. As long as the names created fit their fields, an operation on the bytes does what
the operation of the same name does on the records. Here are the lookups, the opens and the
changes of the tree; the operations on blocks follow in `Ramfs.TableRuns`.
-/

namespace ChalesOs

open ByteMemory

variable {P : PoolPlace} {b b' : RamfsMem} {s s' : Ramfs} {i : Fin 64} {k : Fin 32} {m m' : Mem}
  {a pool v n : ℕ} {t u seg name : CString} {path : Option CString} {inode : Inode}
  {type : NodeType} {progs : Programs}

/-! ### Strings -/

/-- A comparison in memory is a comparison with the string that is there. -/
theorem StringAt.strcmpAt_eq (h : StringAt m a t) (u : CString) :
    strcmpAt m a u = strcmp t u := by
  induction u generalizing a t with
  | nil =>
    cases t with
    | nil => rw [strcmpAt, show m a = 0 from h]; rfl
    | cons d t => rw [strcmpAt, h.1]; simp [strcmp]
  | cons c u ih =>
    cases t with
    | nil => rw [strcmpAt, show m a = 0 from h]; simp [strcmp]
    | cons d t =>
      obtain ⟨rfl, hne, ht⟩ := h
      rw [strcmpAt, strcmp, ih ht]
      simp [hne]

theorem StringAt.strncmpAt_eq (h : StringAt m a t) (u : CString) (n : ℕ) :
    strncmpAt m a u n = strncmp t u n := by
  induction n generalizing a t u with
  | zero => cases u <;> simp [strncmpAt, strncmp]
  | succ n ih =>
    cases u with
    | nil =>
      cases t with
      | nil => rw [strncmpAt, show m a = 0 from h]; simp [strncmp]
      | cons d t => rw [strncmpAt, h.1]; simp [strncmp]
    | cons c u =>
      cases t with
      | nil => rw [strncmpAt, show m a = 0 from h]; simp [strncmp]
      | cons d t =>
        obtain ⟨rfl, hne, ht⟩ := h
        rw [strncmpAt, strncmp, ih ht]
        simp [hne]

/-- Behind a segment that a name begins with, memory ends where the name does. -/
theorem StringAt.ends_iff (h : StringAt m a t) (hseg : (0 : UInt8) ∉ seg)
    (heq : strncmp t seg seg.length = 0) :
    m (a + seg.length) = 0 ↔ t.getD seg.length 0 = 0 := by
  induction seg generalizing a t with
  | nil =>
    cases t with
    | nil => exact iff_of_true h rfl
    | cons d t => rw [List.length_nil, Nat.add_zero, h.1]; rfl
  | cons c seg ih =>
    cases t with
    | nil =>
      have hc := toNat_ne_zero_of_not_mem hseg
      rw [List.length_cons, strncmp] at heq
      · simp only [List.headD_nil, List.headD_cons] at heq
        exact absurd (by simpa using heq) hc
      · simp
    | cons d t =>
      rw [List.length_cons, strncmp] at heq
      split_ifs at heq with hcd
      · have := ih h.2.2 (fun hmem => hseg (List.mem_cons_of_mem _ hmem)) heq
        rw [List.length_cons, List.getD_cons_succ, ← this, Nat.add_assoc, Nat.add_comm 1]
      · exact absurd (UInt8.toNat_inj.mp (by omega)) hcd

/-! ### What is stored -/

/-- Two enumerators with the same value are the same. -/
theorem NodeType.code_inj {t t' : NodeType} : t.code = t'.code ↔ t = t' := by
  cases t <;> cases t' <;> decide

/-- What a store to a field behind the name leaves as it was. -/
private theorem Inode.StoredAt.storeWord (h : inode.StoredAt pool m a) (off v : ℕ)
    (hoff : 264 ≤ off) :
    StringAt (storeWord m (a + off) v) (nameAddr a) inode.name ∧
      ∀ o, o + 4 ≤ off ∨ off + 4 ≤ o →
        loadWord (ChalesOs.storeWord m (a + off) v) (a + o) = loadWord m (a + o) := by
  have hmax : ramfsMaxFilename = 256 := rfl
  have hlt := h.name_lt
  refine ⟨h.name.congr fun b hab hb => eqOn_storeWord ?_, fun o ho =>
    loadWord_storeWord_of_apart (by omega)⟩
  rw [nameAddr] at hab hb
  rw [Set.mem_compl_iff, Set.mem_Ico]
  omega

theorem Inode.StoredAt.storeSize (h : inode.StoredAt pool m a) (hv : v < 0x100000000) :
    Inode.StoredAt pool (ChalesOs.storeWord m (a + 264) v) a { inode with size := v } := by
  obtain ⟨hname, hkeep⟩ := h.storeWord 264 v le_rfl
  refine ⟨(hkeep 0 (by omega)).trans h.ino, (hkeep 4 (by omega)).trans h.type, hname, h.name_lt,
    ?_, (hkeep 268 (by omega)).trans h.parentIno, (hkeep 272 (by omega)).trans h.data,
    (hkeep 276 (by omega)).trans h.capacity⟩
  rw [loadWord_storeWord_self, u32_of_lt hv]

theorem Inode.StoredAt.storeData (h : inode.StoredAt pool m a) (hv : pool + v < 0x100000000) :
    Inode.StoredAt pool (ChalesOs.storeWord m (a + 272) (pool + v)) a
      { inode with data := some v } := by
  obtain ⟨hname, hkeep⟩ := h.storeWord 272 (pool + v) (by omega)
  refine ⟨(hkeep 0 (by omega)).trans h.ino, (hkeep 4 (by omega)).trans h.type, hname, h.name_lt,
    (hkeep 264 (by omega)).trans h.size, (hkeep 268 (by omega)).trans h.parentIno, ?_,
    (hkeep 276 (by omega)).trans h.capacity⟩
  rw [loadWord_storeWord_self, u32_of_lt hv]
  rfl

theorem Inode.StoredAt.storeCapacity (h : inode.StoredAt pool m a) (hv : v < 0x100000000) :
    Inode.StoredAt pool (ChalesOs.storeWord m (a + 276) v) a { inode with capacity := v } := by
  obtain ⟨hname, hkeep⟩ := h.storeWord 276 v (by omega)
  refine ⟨(hkeep 0 (by omega)).trans h.ino, (hkeep 4 (by omega)).trans h.type, hname, h.name_lt,
    (hkeep 264 (by omega)).trans h.size, (hkeep 268 (by omega)).trans h.parentIno,
    (hkeep 272 (by omega)).trans h.data, ?_⟩
  rw [loadWord_storeWord_self, u32_of_lt hv]

/-- Cleared memory holds a cleared inode. -/
theorem Inode.storedAt_zero (hzero : ∀ c, c < inodeBytes → m (a + c) = 0) :
    Inode.zero.StoredAt pool m a := by
  have hbytes : inodeBytes = 280 := rfl
  have hword : ∀ off, off + 4 ≤ inodeBytes → loadWord m (a + off) = 0 := by
    intro off hoff
    have hbyte : ∀ k < 4, m (a + off + k) = 0 := fun k hk =>
      (congrArg m (Nat.add_assoc a off k)).trans (hzero (off + k) (by omega))
    rw [loadWord, hbyte 1 (by omega), hbyte 2 (by omega), hbyte 3 (by omega),
      show m (a + off) = 0 from hbyte 0 (by omega)]
    rfl
  refine ⟨hword 0 (by omega), hword 4 (by omega), hzero 8 (by omega), by decide,
    hword 264 (by omega), hword 268 (by omega), hword 272 (by omega), hword 276 (by omega)⟩

/-- The table with one inode stored anew. -/
theorem Ramfs.StoredIn.setInode (h : s.StoredIn 0 pool m)
    (hself : inode.StoredAt pool m' (slotAddr 0 i))
    (hout : Set.EqOn m' m (Set.Ico (slotAddr 0 i) (slotAddr 0 i + inodeBytes))ᶜ) :
    (s.setInode i inode).StoredIn 0 pool m' := by
  intro j
  by_cases hj : j = i
  · subst hj
    rwa [Ramfs.setInode_self]
  · rw [Ramfs.setInode_of_ne _ _ hj]
    -- the structures do not overlap
    have hval : (j : ℕ) ≠ i := fun heq => hj (Fin.ext heq)
    refine (h j).congr (hout.mono fun b hb => ?_)
    rw [slotAddr, inodeBytes, Set.mem_Ico] at hb
    rw [slotAddr, inodeBytes, Set.mem_compl_iff, Set.mem_Ico]
    omega

/-- What lookups see of the bytes is in the records. -/
structure RamfsMem.Reads (b : RamfsMem) (s : Ramfs) : Prop where
  ino : ∀ i, b.ino i = (s.inodes i).ino
  type : ∀ i, b.type i = (s.inodes i).type.code
  name : ∀ i, StringAt b.table (RamfsMem.name i) (s.inodes i).name
  parentIno : ∀ i, b.parentIno i = (s.inodes i).parentIno

/-- The bytes are the records. -/
structure RamfsMem.Holds (P : PoolPlace) (b : RamfsMem) (s : Ramfs) : Prop where
  stored : s.StoredIn 0 P.addr b.table
  pool : b.pool = s.pool
  poolUsed : b.poolUsed = s.poolUsed
  fds : b.fds = s.fds
  nextInode : b.nextInode = s.nextInode
  nextInode_lt : s.nextInode < 0x100000000

/-- The same result, and the bytes are the records again. -/
structure RamfsMem.SameOutcome {α : Type} (P : PoolPlace) (r : α × RamfsMem) (r' : α × Ramfs) :
    Prop where
  ret : r.1 = r'.1
  fs : r.2.Holds P r'.2

/-- The operation on the bytes has an outcome if the one on the records has one, and no other. -/
abbrev RamfsMem.Follows {α : Type} (P : PoolPlace) :
    Option (α × RamfsMem) → Option (α × Ramfs) → Prop :=
  Option.Rel (RamfsMem.SameOutcome P)

theorem RamfsMem.SameOutcome.map {α β : Type} {r : α × RamfsMem} {r' : α × Ramfs}
    (h : RamfsMem.SameOutcome P r r') (f : α → β) :
    RamfsMem.SameOutcome P (f r.1, r.2) (f r'.1, r'.2) :=
  ⟨congrArg f h.ret, h.fs⟩

/-! ### Lookup -/

namespace RamfsMem.Reads

theorem type_eq_iff (h : b.Reads s) (i : Fin 64) (type : NodeType) :
    b.type i = type.code ↔ (s.inodes i).type = type := by
  rw [h.type, NodeType.code_inj]

/-- Searches that ask the same find the same. -/
theorem firstSlot_eq {p : Fin 64 → Bool} {q : Inode → Bool}
    (hpq : ∀ i, p i = q (s.inodes i)) : firstSlot p = s.findSlot q :=
  congrArg (List.find? · (List.finRange 64)) (funext hpq)

theorem slotOfIno_eq (h : b.Reads s) (f : ℕ) : b.slotOfIno f = s.slotOfIno f :=
  firstSlot_eq fun i => by rw [h.ino]

theorem ramfsFindFreeInode_eq (h : b.Reads s) : b.ramfsFindFreeInode = ramfsFindFreeInode s := by
  rw [RamfsMem.ramfsFindFreeInode, ramfsFindFreeInode, firstSlot]
  simp only [h.ino]

theorem resolveSegments_eq (h : b.Reads s) {segs : List CString}
    (hsegs : ∀ seg ∈ segs, (0 : UInt8) ∉ seg) (n : ℕ) :
    b.resolveSegments n segs = resolveSegments s n segs := by
  induction segs generalizing n with
  | nil => rfl
  | cons seg segs ih =>
    have hseg := hsegs seg List.mem_cons_self
    have ih := ih fun seg hmem => hsegs seg (List.mem_cons_of_mem _ hmem)
    have hfind := firstSlot_eq (s := s) (p := fun i => b.ino i ≠ 0 ∧ b.parentIno i = n ∧
        b.type i = NodeType.dir.code ∧ strncmpAt b.table (RamfsMem.name i) seg seg.length = 0 ∧
        b.table (RamfsMem.name i + seg.length) = 0)
      (q := fun inode => inode.ino ≠ 0 ∧ inode.parentIno = n ∧ inode.type = .dir ∧
        strncmp inode.name seg seg.length = 0 ∧ inode.name.getD seg.length 0 = 0) fun i => by
      rw [h.ino, h.parentIno, (h.name i).strncmpAt_eq, decide_eq_decide, h.type_eq_iff]
      refine and_congr_right' (and_congr_right' (and_congr_right' (and_congr_right fun heq => ?_)))
      exact (h.name i).ends_iff hseg heq
    rw [RamfsMem.resolveSegments, resolveSegments, hfind, ih]
    split_ifs
    · rfl
    · cases s.findSlot _ with
      | none => rfl
      | some found =>
        dsimp only
        rw [ih, h.ino]

theorem ramfsResolveDir_eq (h : b.Reads s) (ht : (0 : UInt8) ∉ t) :
    b.ramfsResolveDir t = ramfsResolveDir s t := by
  rw [RamfsMem.ramfsResolveDir, ramfsResolveDir, h.resolveSegments_eq]
  exact fun seg hseg hmem => ht (mem_of_mem_splitOn hseg hmem)

theorem zero_notMem_split (ht : (0 : UInt8) ∉ t) :
    (0 : UInt8) ∉ (ramfsSplitPath t).1 ∧ (0 : UInt8) ∉ (ramfsSplitPath t).2 := by
  rw [ramfsSplitPath_eq]
  exact ⟨fun hmem => ht (mem_of_mem_pathDir (List.mem_of_mem_take hmem)),
    fun hmem => ht (mem_of_mem_pathName hmem)⟩

theorem ramfsFindInode_eq (h : b.Reads s) (hpath : ∀ t, path = some t → (0 : UInt8) ∉ t) :
    b.ramfsFindInode path = ramfsFindInode s path := by
  cases path with
  | none => rfl
  | some t =>
    rw [RamfsMem.ramfsFindInode, ramfsFindInode]
    split_ifs
    · rfl
    dsimp only
    rw [h.ramfsResolveDir_eq (zero_notMem_split (hpath t rfl)).1]
    cases ramfsResolveDir s (ramfsSplitPath t).1 with
    | none => rfl
    | some parentIno =>
      exact firstSlot_eq fun i => by rw [h.ino, h.parentIno, (h.name i).strcmpAt_eq]

end RamfsMem.Reads

namespace RamfsMem.Holds

/-- Lookups see no more than the records have. -/
theorem reads (h : b.Holds P s) : b.Reads s :=
  ⟨fun i => (h.stored i).ino, fun i => (h.stored i).type, fun i => (h.stored i).name,
    fun i => (h.stored i).parentIno⟩

theorem ino_eq (h : b.Holds P s) (i : Fin 64) : b.ino i = (s.inodes i).ino := (h.stored i).ino

theorem size_eq (h : b.Holds P s) (i : Fin 64) : b.size i = (s.inodes i).size := (h.stored i).size

theorem capacity_eq (h : b.Holds P s) (i : Fin 64) : b.capacity i = (s.inodes i).capacity :=
  (h.stored i).capacity

theorem ino_lt (h : b.Holds P s) (i : Fin 64) : (s.inodes i).ino < 0x100000000 :=
  h.ino_eq i ▸ loadWord_lt _ _

theorem ramfsFindFreeFd_eq (h : b.Holds P s) : b.ramfsFindFreeFd = ramfsFindFreeFd s := by
  rw [RamfsMem.ramfsFindFreeFd, ramfsFindFreeFd, h.fds]

/-- The number of a directory is a word. -/
theorem resolveDir_lt (h : b.Holds P s) (hdir : ramfsResolveDir s t = some n) :
    n < 0x100000000 := by
  suffices hall : ∀ segs m, m < 0x100000000 → resolveSegments s m segs = some n →
      n < 0x100000000 by
    rw [ramfsResolveDir, Option.filter_eq_some_iff] at hdir
    exact hall _ 0 (by decide) hdir.1
  intro segs
  induction segs with
  | nil =>
    intro m hm heq
    exact Option.some_injective _ heq ▸ hm
  | cons seg segs ih =>
    intro m hm heq
    rw [resolveSegments] at heq
    split_ifs at heq
    · exact ih m hm heq
    · split at heq
      · exact absurd heq (by simp)
      · exact ih _ (h.ino_lt _) heq

end RamfsMem.Holds

/-! ### Changes -/

/-- A store to a field stays in the structure. -/
private theorem eqOn_storeField {off : ℕ} (hoff : off + 4 ≤ inodeBytes) :
    Set.EqOn (storeWord m (a + off) v) m (Set.Ico a (a + inodeBytes))ᶜ :=
  eqOn_storeWord.mono (Set.compl_subset_compl.mpr
    (Set.Ico_subset_Ico (Nat.le_add_right _ _) (by omega)))

namespace RamfsMem.Holds

theorem setFd (h : b.Holds P s) (k : Fin 32) (f : Fd) : (b.setFd k f).Holds P (s.setFd k f) :=
  ⟨h.stored, h.pool, h.poolUsed, by rw [RamfsMem.setFd, Ramfs.setFd, h.fds], h.nextInode,
    h.nextInode_lt⟩

/-- The structure of one inode is changed. -/
theorem setInode (h : b.Holds P s) (hself : inode.StoredAt P.addr m (slotAddr 0 i))
    (hout : Set.EqOn m b.table (Set.Ico (slotAddr 0 i) (slotAddr 0 i + inodeBytes))ᶜ) :
    ({ b with table := m } : RamfsMem).Holds P (s.setInode i inode) :=
  ⟨h.stored.setInode hself hout, h.pool, h.poolUsed, h.fds, h.nextInode, h.nextInode_lt⟩

theorem storeSize (h : b.Holds P s) (i : Fin 64) (hv : v < 0x100000000) :
    (b.storeField i 264 v).Holds P (s.setInode i { s.inodes i with size := v }) :=
  h.setInode ((h.stored i).storeSize hv) (eqOn_storeField (by decide))

theorem storeData (h : b.Holds P s) (i : Fin 64) (hv : P.addr + v < 0x100000000) :
    (b.storeField i 272 (P.addr + v)).Holds P (s.setInode i { s.inodes i with data := some v }) :=
  h.setInode ((h.stored i).storeData hv) (eqOn_storeField (by decide))

theorem storeCapacity (h : b.Holds P s) (i : Fin 64) (hv : v < 0x100000000) :
    (b.storeField i 276 v).Holds P (s.setInode i { s.inodes i with capacity := v }) :=
  h.setInode ((h.stored i).storeCapacity hv) (eqOn_storeField (by decide))

theorem clearSlot (h : b.Holds P s) (i : Fin 64) :
    (b.clearSlot i).Holds P (s.setInode i Inode.zero) :=
  h.setInode (Inode.storedAt_zero fun c hc => fill_of_mem ⟨by omega, by omega⟩) eqOn_fill

/-- **A creation whose name fits.** -/
theorem create (h : b.Holds P s) (i : Fin 64) (type : NodeType) (hparent : n < 0x100000000)
    (hname : name.length ≤ 255) (hnul : (0 : UInt8) ∉ name) :
    Option.Rel (Holds P) (b.ramfsCreate i type n name) (ramfsCreate s i type n name) := by
  have hsome : (ramfsCreate s i type n name).isSome := ramfsCreate_isSome hname
  obtain ⟨s', hs'⟩ := Option.isSome_iff_exists.mp hsome
  obtain ⟨-, -, hfds, hnext⟩ := ramfsCreate_frame hs'
  have hend : RamfsMem.name i + name.length < inodeBytes * 64 := by
    have hbytes : inodeBytes = 280 := rfl
    have hi := i.isLt
    rw [RamfsMem.name, nameAddr, slotAddr, hbytes]
    omega
  have hframe : s'.pool = s.pool ∧ s'.poolUsed = s.poolUsed := by
    obtain ⟨-, rfl⟩ := ramfsCreate_eq_some hs'
    exact ⟨rfl, rfl⟩
  rw [RamfsMem.ramfsCreate, if_pos hend, hs']
  refine .some ⟨?_, h.pool.trans hframe.1.symm, h.poolUsed.trans hframe.2.symm,
    h.fds.trans hfds.symm, ?_, ?_⟩
  · rw [h.nextInode]
    exact h.stored.create hnul h.nextInode_lt hparent hs'
  · rw [hnext, h.nextInode]
  · rw [hnext]
    exact Nat.mod_lt _ (by decide)

/-! ### Opening and closing -/

theorem openFd (h : b.Holds P s) (i : Fin 64) :
    SameOutcome P (b.ramfsOpenFd i) (ramfsOpenFd s i) := by
  have htype := not_congr (h.reads.type_eq_iff i .file)
  rw [RamfsMem.ramfsOpenFd, ramfsOpenFd, h.ramfsFindFreeFd_eq, h.ino_eq]
  by_cases hfile : (s.inodes i).type ≠ .file
  · rw [if_pos (htype.mpr hfile), if_pos hfile]
    exact ⟨rfl, h⟩
  rw [if_neg (mt htype.mp hfile), if_neg hfile]
  cases ramfsFindFreeFd s with
  | none => exact ⟨rfl, h⟩
  | some k => exact ⟨rfl, h.setFd k _⟩

theorem «open» (h : b.Holds P s) (flags : ℕ) (hpath : ∀ t, path = some t → (0 : UInt8) ∉ t)
    (hfits : ∀ t, path = some t → flags &&& 1 ≠ 0 → s.Creates path → (pathName t).length ≤ 255) :
    Follows P (b.ramfsOpen path flags) (ramfsOpen s path flags) := by
  rw [RamfsMem.ramfsOpen, ramfsOpen, h.reads.ramfsFindInode_eq hpath]
  cases hfind : ramfsFindInode s path with
  | some i => exact .some (h.openFd i)
  | none =>
    obtain ⟨t, rfl⟩ : ∃ t, path = some t := by
      cases path with
      | none => simp [ramfsFindInode] at hfind
      | some t => exact ⟨t, rfl⟩
    dsimp only [Option.getD_some]
    by_cases hflags : flags &&& 1 ≠ 0
    · rw [if_pos hflags, if_pos hflags, h.reads.ramfsFindFreeInode_eq]
      obtain ⟨hdirNul, hnameNul⟩ := Reads.zero_notMem_split (hpath t rfl)
      cases hfree : ramfsFindFreeInode s with
      | none => exact .some ⟨rfl, h⟩
      | some i =>
        dsimp only
        rw [h.reads.ramfsResolveDir_eq hdirNul]
        cases hdir : ramfsResolveDir s (ramfsSplitPath t).1 with
        | none => exact .some ⟨rfl, h⟩
        | some parentIno =>
          have hlen := hfits t rfl hflags (.intro hfind hfree hdir)
          have hname : (ramfsSplitPath t).2 = pathName t := by rw [ramfsSplitPath_eq]
          exact (h.create i .file (h.resolveDir_lt hdir) (hname ▸ hlen) hnameNul).map
            fun b₁ s₁ h₁ => h₁.openFd i
    · rw [if_neg hflags, if_neg hflags]
      exact .some ⟨rfl, h⟩

theorem close (h : b.Holds P s) (fd : ℤ) : SameOutcome P (b.ramfsClose fd) (ramfsClose s fd) := by
  rw [RamfsMem.ramfsClose, ramfsClose, h.fds]
  cases validFd fd with
  | none => exact ⟨rfl, h⟩
  | some k =>
    dsimp only
    split_ifs
    · exact ⟨rfl, h⟩
    · exact ⟨rfl, h.setFd k _⟩

theorem open2Fd (h : b.Holds P s) (i : Fin 64) (oflags : ℕ) :
    SameOutcome P (b.ramfsOpen2Fd i oflags) (ramfsOpen2Fd s i oflags) := by
  have htype := h.reads.type_eq_iff i .dir
  rw [RamfsMem.ramfsOpen2Fd, ramfsOpen2Fd, h.ramfsFindFreeFd_eq]
  by_cases hdir : (s.inodes i).type = .dir
  · rw [if_pos (htype.mpr hdir), if_pos hdir]
    exact ⟨rfl, h⟩
  rw [if_neg (mt htype.mp hdir), if_neg hdir]
  cases ramfsFindFreeFd s with
  | none => exact ⟨rfl, h⟩
  | some k =>
    dsimp only
    split_ifs
    · have h₁ := h.storeSize i (v := 0) (by decide)
      rw [h₁.ino_eq]
      exact ⟨rfl, h₁.setFd k _⟩
    · rw [h.ino_eq]
      exact ⟨rfl, h.setFd k _⟩

theorem open2 (h : b.Holds P s) (oflags : ℕ) (hpath : ∀ t, path = some t → (0 : UInt8) ∉ t)
    (hfits : ∀ t, path = some t → oflags &&& oCreat ≠ 0 → s.Creates path →
      (pathName t).length ≤ 255) :
    Follows P (b.ramfsOpen2 path oflags) (ramfsOpen2 s path oflags) := by
  rw [RamfsMem.ramfsOpen2, ramfsOpen2]
  by_cases hnull : path = none
  · rw [if_pos hnull, if_pos hnull]
    exact .some ⟨rfl, h⟩
  rw [if_neg hnull, if_neg hnull, h.reads.ramfsFindInode_eq hpath]
  cases hfind : ramfsFindInode s path with
  | some i =>
    dsimp only
    split_ifs
    · exact .some ⟨rfl, h⟩
    · exact .some (h.open2Fd i oflags)
  | none =>
    dsimp only
    by_cases hcreat : oflags &&& oCreat = 0
    · rw [if_pos hcreat, if_pos hcreat]
      exact .some ⟨rfl, h⟩
    rw [if_neg hcreat, if_neg hcreat]
    have hopen := h.open 1 hpath fun t ht _ hc => hfits t ht hcreat hc
    refine hopen.map fun r r' hsame => ?_
    obtain ⟨tmp, b₁⟩ := r
    obtain ⟨tmp', s₁⟩ := r'
    obtain ⟨hret, h₁⟩ := hsame
    obtain rfl : tmp = tmp' := hret
    dsimp only at h₁ ⊢
    by_cases htmp : tmp < 0
    · rw [if_pos htmp, if_pos htmp]
      exact ⟨rfl, h₁⟩
    rw [if_neg htmp, if_neg htmp]
    have h₂ := (h₁.close tmp).fs
    rw [h₂.reads.ramfsFindInode_eq hpath]
    cases ramfsFindInode (ramfsClose s₁ tmp).2 path with
    | none => exact ⟨rfl, h₂⟩
    | some i => exact h₂.open2Fd i oflags

/-! ### The tree -/

theorem mkdir (h : b.Holds P s) (hpath : ∀ t, path = some t → (0 : UInt8) ∉ t)
    (hfits : ∀ t, path = some t → s.Creates path → (pathName t).length ≤ 255) :
    Follows P (b.ramfsMkdir path) (ramfsMkdir s path) := by
  cases path with
  | none => exact .some ⟨rfl, h⟩
  | some t =>
    rw [RamfsMem.ramfsMkdir, ramfsMkdir, h.reads.ramfsFindInode_eq hpath]
    split_ifs with hempty hfound
    · exact .some ⟨rfl, h⟩
    · exact .some ⟨rfl, h⟩
    rw [h.reads.ramfsFindFreeInode_eq]
    obtain ⟨hdirNul, hnameNul⟩ := Reads.zero_notMem_split (hpath t rfl)
    cases hfree : ramfsFindFreeInode s with
    | none => exact .some ⟨rfl, h⟩
    | some i =>
      dsimp only
      rw [h.reads.ramfsResolveDir_eq hdirNul]
      cases hdir : ramfsResolveDir s (ramfsSplitPath t).1 with
      | none => exact .some ⟨rfl, h⟩
      | some parentIno =>
        have hlen := hfits t rfl (.intro (by simpa using hfound) hfree hdir)
        have hname : (ramfsSplitPath t).2 = pathName t := by rw [ramfsSplitPath_eq]
        exact (h.create i .dir (h.resolveDir_lt hdir) (hname ▸ hlen) hnameNul).map
          fun b₁ s₁ h₁ => ⟨rfl, h₁⟩

theorem rmdir (h : b.Holds P s) (hpath : ∀ t, path = some t → (0 : UInt8) ∉ t) :
    SameOutcome P (b.ramfsRmdir path) (ramfsRmdir s path) := by
  rw [RamfsMem.ramfsRmdir, ramfsRmdir, h.reads.ramfsFindInode_eq hpath]
  cases ramfsFindInode s path with
  | none => exact ⟨rfl, h⟩
  | some i =>
    have htype := not_congr (h.reads.type_eq_iff i .dir)
    dsimp only
    by_cases hdir : (s.inodes i).type ≠ .dir
    · rw [if_pos (htype.mpr hdir), if_pos hdir]
      exact ⟨rfl, h⟩
    · rw [if_neg (mt htype.mp hdir), if_neg hdir]
      exact ⟨rfl, h.clearSlot i⟩

end RamfsMem.Holds

end ChalesOs
