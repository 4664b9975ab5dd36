import ChalesOs.Memory.Strings
import ChalesOs.Ramfs.Tree

/-!
# The inode table in memory

The other modules keep an inode as a record, whose name has whatever length it has. Here the table
is what it is to the machine: 64 structures of 280 bytes, in each of which the name has a field of
256. `fillInode` are the stores by which `ramfs_open` and `ramfs_mkdir` create an inode, `strcpy`
among them, and `Ramfs.StoredIn.create` says that they do to the table in memory what
`ramfsCreate` does to the records, if the name fits its field.

`strcpy` does not ask. `nameFits_iff` is exact about it: the last component of a path reaches the
field uncut, so a creation stays inside it if and only if that component has at most 255 bytes.
-/

namespace ChalesOs

open ByteMemory

variable {s s' : Ramfs} {i : Fin 64} {op : RamfsOp} {res : RamfsResult} {m m' : Mem}
  {a table pool ino parentIno : ℕ} {type : NodeType} {name path : CString} {inode : Inode}

/-! ### The copy of a string -/

/-- `strcpy`. -/
def strcpy : Mem → (dest : ℕ) → (src : CString) → Mem
  | m, dest, [] => write m dest [0]
  | m, dest, c :: src => strcpy (write m dest [c]) (dest + 1) src

theorem strcpy_eq_write (m : Mem) (a : ℕ) (name : CString) :
    strcpy m a name = write m a (name ++ [0]) := by
  induction name generalizing m a with
  | nil => rfl
  | cons c name ih =>
    rw [strcpy, ih, List.cons_append]
    exact write_cons.symm

/-- The last byte of a copy. -/
theorem strcpy_end (m : Mem) (a : ℕ) (name : CString) : strcpy m a name (a + name.length) = 0 := by
  rw [strcpy_eq_write, write, if_pos (Nat.le_add_right _ _), Nat.add_sub_cancel_left]
  simp

/-- A copy leaves the words apart from the string alone. -/
theorem loadWord_strcpy_of_apart {b : ℕ} (h : b + 4 ≤ a ∨ a + name.length < b) :
    loadWord (strcpy m a name) b = loadWord m b := by
  refine loadWord_congr fun k hk => ?_
  rw [strcpy_eq_write]
  refine eqOn_write ?_
  rw [Set.mem_compl_iff, Set.mem_Ico, List.length_append, List.length_singleton]
  omega

/-- A copy stays inside a field of `n` bytes, whatever the memory holds, if and only if the string
is shorter. -/
theorem strcpy_eqOn_iff {n : ℕ} :
    (∀ m, Set.EqOn (strcpy m a name) m (Set.Ico a (a + n))ᶜ) ↔ name.length < n := by
  constructor
  · intro h
    by_contra hlong
    have hn : n < (name ++ [0]).length := by
      rw [List.length_append, List.length_singleton]
      omega
    -- a memory that holds something else right behind the field
    have hbehind := h (fun _ => (name ++ [0])[n] + 1) (x := a + n) (by simp)
    rw [strcpy_eq_write, write, if_pos (Nat.le_add_right _ _), Nat.add_sub_cancel_left,
      List.getElem?_eq_getElem hn, Option.getD_some] at hbehind
    exact absurd hbehind (by simp)
  · intro hshort m
    rw [strcpy_eq_write]
    refine eqOn_write.mono (Set.compl_subset_compl.mpr (Set.Ico_subset_Ico le_rfl ?_))
    rw [List.length_append, List.length_singleton]
    omega

/-! ### The structure of an inode -/

/-- `sizeof(ramfs_inode_t)`. -/
def inodeBytes : ℕ := 280

/-- The address of `ramfs_inodes[i]`. -/
def slotAddr (table : ℕ) (i : Fin 64) : ℕ := table + inodeBytes * i

/-- The address of the field `name` of the structure at `a`, behind `ino` and `type`. -/
def nameAddr (a : ℕ) : ℕ := a + 8

/-- The value of an enumerator. -/
def NodeType.code : NodeType → ℕ
  | .file => 0
  | .dir => 1

/-- The stores by which `ramfs_open` and `ramfs_mkdir` fill the structure at `a`. -/
def fillInode (m : Mem) (a ino : ℕ) (type : NodeType) (name : CString) (parentIno : ℕ) : Mem :=
  let m := storeWord m a ino
  let m := storeWord m (a + 4) type.code
  let m := strcpy m (nameAddr a) name
  let m := storeWord m (a + 264) 0
  storeWord m (a + 268) parentIno

/-- The structure at `a` holds an inode, when the pool is at the address `pool`. -/
structure Inode.StoredAt (pool : ℕ) (m : Mem) (a : ℕ) (inode : Inode) : Prop where
  ino : loadWord m a = inode.ino
  type : loadWord m (a + 4) = inode.type.code
  name : StringAt m (nameAddr a) inode.name
  name_lt : inode.name.length < ramfsMaxFilename
  size : loadWord m (a + 264) = inode.size
  parentIno : loadWord m (a + 268) = inode.parentIno
  data : loadWord m (a + 272) = inode.data.elim 0 (pool + ·)
  capacity : loadWord m (a + 276) = inode.capacity

/-- The memory holds the inode table. -/
def Ramfs.StoredIn (s : Ramfs) (table pool : ℕ) (m : Mem) : Prop :=
  ∀ i, (s.inodes i).StoredAt pool m (slotAddr table i)

/-- The structure is all that is read. -/
theorem Inode.StoredAt.congr (h : inode.StoredAt pool m a)
    (heq : Set.EqOn m' m (Set.Ico a (a + inodeBytes))) : inode.StoredAt pool m' a := by
  have hword : ∀ off, off + 4 ≤ inodeBytes → loadWord m' (a + off) = loadWord m (a + off) := by
    intro off hoff
    refine loadWord_congr fun k hk => heq ?_
    rw [Set.mem_Ico]
    omega
  have hbytes : inodeBytes = 280 := rfl
  have hmax : ramfsMaxFilename = 256 := rfl
  refine ⟨(hword 0 (by omega)).trans h.ino, (hword 4 (by omega)).trans h.type,
    h.name.congr fun b hab hb => heq ?_, h.name_lt, (hword 264 (by omega)).trans h.size,
    (hword 268 (by omega)).trans h.parentIno, (hword 272 (by omega)).trans h.data,
    (hword 276 (by omega)).trans h.capacity⟩
  have hlt := h.name_lt
  rw [nameAddr] at hab hb
  rw [Set.mem_Ico]
  omega

/-- Filling an inode changes nothing in front of the structure, and nothing behind the parent and
the copy of the name. -/
theorem eqOn_fillInode_of_le {n : ℕ} (hn : 272 ≤ n) (hname : name.length + 9 ≤ n) :
    Set.EqOn (fillInode m a ino type name parentIno) m (Set.Ico a (a + n))ᶜ := by
  have hsub : ∀ off k, off + k ≤ n →
      (Set.Ico a (a + n))ᶜ ⊆ (Set.Ico (a + off) (a + off + k))ᶜ := fun off k hle =>
    Set.compl_subset_compl.mpr (Set.Ico_subset_Ico (Nat.le_add_right _ _) (by omega))
  have hlen : (name ++ [0]).length = name.length + 1 := List.length_append
  rw [fillInode, strcpy_eq_write]
  refine (eqOn_storeWord.mono (hsub 268 4 (by omega))).trans ?_
  refine (eqOn_storeWord.mono (hsub 264 4 (by omega))).trans ?_
  refine (eqOn_write.mono (hsub 8 _ (by omega))).trans ?_
  exact (eqOn_storeWord.mono (hsub 4 4 (by omega))).trans
    (eqOn_storeWord.mono (hsub 0 4 (by omega)))

/-- Filling an inode changes nothing but its number, type, name, size and parent, if the name
fits. -/
theorem eqOn_fillInode (hname : name.length < ramfsMaxFilename) :
    Set.EqOn (fillInode m a ino type name parentIno) m (Set.Ico a (a + 272))ᶜ := by
  rw [ramfsMaxFilename] at hname
  exact eqOn_fillInode_of_le le_rfl (by omega)

section FilledFields

/-! The words are stored whatever the name is. -/

theorem loadWord_fillInode_ino : loadWord (fillInode m a ino type name parentIno) a = u32 ino := by
  rw [fillInode, loadWord_storeWord_of_apart (by omega), loadWord_storeWord_of_apart (by omega),
    loadWord_strcpy_of_apart (by rw [nameAddr]; omega), loadWord_storeWord_of_apart (by omega),
    loadWord_storeWord_self]

theorem loadWord_fillInode_type :
    loadWord (fillInode m a ino type name parentIno) (a + 4) = type.code := by
  have hcode : type.code < 0x100000000 := by cases type <;> decide
  rw [fillInode, loadWord_storeWord_of_apart (by omega), loadWord_storeWord_of_apart (by omega),
    loadWord_strcpy_of_apart (by rw [nameAddr]; omega), loadWord_storeWord_self, u32_of_lt hcode]

theorem loadWord_fillInode_size :
    loadWord (fillInode m a ino type name parentIno) (a + 264) = 0 := by
  rw [fillInode, loadWord_storeWord_of_apart (by omega), loadWord_storeWord_self]
  rfl

theorem loadWord_fillInode_parentIno :
    loadWord (fillInode m a ino type name parentIno) (a + 268) = u32 parentIno := by
  rw [fillInode, loadWord_storeWord_self]

end FilledFields

/-- A name of at most 256 bytes can be read. The `NUL` of a name of 256 is the size behind the
field, which is cleared. -/
theorem stringAt_fillInode (hname : name.length ≤ 256) (hnul : (0 : UInt8) ∉ name) :
    StringAt (fillInode m a ino type name parentIno) (nameAddr a) name := by
  have hcopied : StringAt (strcpy (storeWord (storeWord m a ino) (a + 4) type.code) (nameAddr a)
      name) (nameAddr a) name := by
    rw [strcpy_eq_write]
    exact stringAt_write hnul
  refine hcopied.congr fun b hab hb => ?_
  rw [nameAddr] at hab hb
  by_cases hfield : b < a + 264
  · -- the two stores behind the copy are behind the field
    have hout : ∀ off, 264 ≤ off → b ∈ (Set.Ico (a + off) (a + off + 4))ᶜ := by
      intro off hoff
      rw [Set.mem_compl_iff, Set.mem_Ico]
      omega
    exact (eqOn_storeWord (hout 268 (by omega))).trans (eqOn_storeWord (hout 264 le_rfl))
  · obtain rfl : b = a + 264 := by omega
    have hend : a + 264 = nameAddr a + name.length := by
      rw [nameAddr]
      omega
    rw [eq_zero_of_loadWord loadWord_fillInode_size, hend, strcpy_end]

/-- The `NUL` of a name that reaches behind the parent. -/
theorem fillInode_end (hname : 264 ≤ name.length) :
    fillInode m a ino type name parentIno (nameAddr a + name.length) = 0 := by
  have hout : ∀ off, off ≤ 268 → nameAddr a + name.length ∈ (Set.Ico (a + off) (a + off + 4))ᶜ := by
    intro off hoff
    rw [nameAddr, Set.mem_compl_iff, Set.mem_Ico]
    omega
  rw [fillInode]
  exact (eqOn_storeWord (hout 268 le_rfl)).trans
    ((eqOn_storeWord (hout 264 (by omega))).trans (strcpy_end _ _ _))

/-- A filled structure holds the new inode, with the block it had. -/
theorem Inode.StoredAt.fill (h : inode.StoredAt pool m a) (hname : name.length < ramfsMaxFilename)
    (hnul : (0 : UInt8) ∉ name) (hino : ino < 0x100000000) (hparent : parentIno < 0x100000000) :
    Inode.StoredAt pool (fillInode m a ino type name parentIno) a
      { inode with ino := ino, type := type, name := name, size := 0, parentIno := parentIno } := by
  have hmax : ramfsMaxFilename = 256 := rfl
  -- a word the five stores do not write
  have hkeep : ∀ b, a + 272 ≤ b → loadWord (fillInode m a ino type name parentIno) b =
      loadWord m b := by
    intro b hb
    refine loadWord_congr fun k hk => eqOn_fillInode hname ?_
    rw [Set.mem_compl_iff, Set.mem_Ico]
    omega
  exact ⟨loadWord_fillInode_ino.trans (u32_of_lt hino), loadWord_fillInode_type,
    stringAt_fillInode (by omega) hnul, hname, loadWord_fillInode_size,
    loadWord_fillInode_parentIno.trans (u32_of_lt hparent), (hkeep _ (by omega)).trans h.data,
    (hkeep _ (by omega)).trans h.capacity⟩

/-- **A creation in memory.** When the name fits its field, the stores of `ramfs_open` and
`ramfs_mkdir` turn the table in memory into the table `ramfsCreate` makes. -/
theorem Ramfs.StoredIn.create (h : s.StoredIn table pool m) (hnul : (0 : UInt8) ∉ name)
    (hnext : s.nextInode < 0x100000000) (hparent : parentIno < 0x100000000)
    (hcreate : ramfsCreate s i type parentIno name = some s') :
    s'.StoredIn table pool (fillInode m (slotAddr table i) s.nextInode type name parentIno) := by
  intro j
  obtain ⟨hself, hne, -, -⟩ := ramfsCreate_frame hcreate
  have hname := (ramfsCreate_eq_some hcreate).1
  by_cases hj : j = i
  · subst hj
    rw [hself]
    exact (h j).fill hname hnul hnext hparent
  · rw [hne j hj]
    -- another structure lies in front of the new one or behind it
    have hval : (j : ℕ) ≠ i := fun heq => hj (Fin.ext heq)
    refine (h j).congr ((eqOn_fillInode hname).mono fun b hb => ?_)
    rw [slotAddr, inodeBytes, Set.mem_Ico] at hb
    rw [slotAddr, inodeBytes, Set.mem_compl_iff, Set.mem_Ico]
    omega

/-! ### Which names are copied -/

/-- The operation creates an inode. -/
def RamfsOp.CreatesInode (s : Ramfs) : RamfsOp → Prop
  | .open path flags => flags &&& 1 ≠ 0 ∧ s.Creates path
  | .open2 path oflags => oflags &&& oCreat ≠ 0 ∧ s.Creates path
  | .mkdir path => s.Creates path
  | _ => False

/-- The name fits the field of slot `i`: it takes at most `RAMFS_MAX_FILENAME` bytes with its
`NUL`, its copy changes no byte outside the field, and the creation no byte but those of the new
inode in front of the pointer to its block. -/
structure NameFits (i : Fin 64) (name : CString) : Prop where
  size_le : (name ++ [0]).length ≤ ramfsMaxFilename
  copy : ∀ table m, Set.EqOn (strcpy m (nameAddr (slotAddr table i)) name) m
    (Set.Ico (nameAddr (slotAddr table i)) (nameAddr (slotAddr table i) + ramfsMaxFilename))ᶜ
  creation : ∀ table m ino type parentIno,
    Set.EqOn (fillInode m (slotAddr table i) ino type name parentIno) m
      (Set.Ico (slotAddr table i) (slotAddr table i + 272))ᶜ

/-- Whatever inode the operation creates, its name fits. -/
def RamfsOp.NamesFit (s : Ramfs) (op : RamfsOp) : Prop :=
  ∀ i path, op.CreatesInode s → ramfsFindFreeInode s = some i → op.path = some (some path) →
    NameFits i (ramfsSplitPath path).2

theorem nameFits_iff_length : NameFits i name ↔ name.length ≤ 255 := by
  have hlen : (name ++ [0]).length = name.length + 1 := List.length_append
  constructor
  · intro h
    have := h.size_le
    rw [hlen, ramfsMaxFilename] at this
    omega
  · intro h
    have hlt : name.length < ramfsMaxFilename := by
      rw [ramfsMaxFilename]
      omega
    exact ⟨by omega, fun _ => strcpy_eqOn_iff.mpr hlt, fun _ _ _ _ _ => eqOn_fillInode hlt⟩

/-- What creates an inode has found a free slot. -/
theorem RamfsOp.CreatesInode.exists_free (h : op.CreatesInode s) :
    ∃ i, ramfsFindFreeInode s = some i := by
  cases op with
  | «open» path flags => exact Option.isSome_iff_exists.mp h.2.2.1
  | open2 path oflags => exact Option.isSome_iff_exists.mp h.2.2.1
  | mkdir path => exact Option.isSome_iff_exists.mp h.2.1
  | close | read | write | lseek | rmdir | unlink => exact h.elim

/-- **When the names fit.** A creation stays inside the name field if and only if the last
component of the path has at most 255 bytes. -/
theorem namesFit_iff (s : Ramfs) (op : RamfsOp) :
    op.NamesFit s ↔
      ∀ path, op.CreatesInode s → op.path = some (some path) → (pathName path).length ≤ 255 := by
  have hname : ∀ path, (ramfsSplitPath path).2 = pathName path := by
    intro path
    rw [ramfsSplitPath_eq]
  constructor
  · intro h path hcreates hpath
    obtain ⟨i, hi⟩ := hcreates.exists_free
    have hfits := h i path hcreates hi hpath
    rwa [nameFits_iff_length, hname] at hfits
  · intro h i path hcreates _ hpath
    rw [nameFits_iff_length, hname]
    exact h path hcreates hpath

/-- Not all names fit: `ramfs_mkdir` copies a name of 300 bytes, as far as into the next inode. -/
theorem not_namesFit :
    ¬∀ (progs : Programs) (run : RamfsRun), (ramfsSystem progs).Reachable run →
      ∀ op : RamfsOp, op.NamesFit run.fs := by
  intro h
  have hcreates : (RamfsOp.mkdir (some (slash :: List.replicate 300 0x61))).CreatesInode
      freshRun.fs := by
    change freshRun.fs.Creates _
    decide +kernel
  have hname : pathName ([] ++ slash :: List.replicate 300 0x61) = List.replicate 300 0x61 :=
    pathName_append fun hmem => absurd (List.eq_of_mem_replicate hmem) (by decide)
  obtain ⟨i, hi⟩ := hcreates.exists_free
  have hfits := h noPrograms freshRun (.start freshRun_start) _ i _ hcreates hi rfl
  rw [nameFits_iff_length, ramfsSplitPath_eq, ← List.nil_append (slash :: _), hname,
    List.length_replicate] at hfits
  omega

end ChalesOs
