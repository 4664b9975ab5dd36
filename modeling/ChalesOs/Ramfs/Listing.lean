import ChalesOs.Ramfs.MadeDirs
import ChalesOs.Stdio.Printk

/-!
# Directory listings

`ramfs_ls` prints the entries of a directory, one line each, in the order of the inode table. It
finds the directory by its path once and compares parent numbers from then on; lookups walk the
path piece by piece and compare names. `ramfsLs_lists` says that the two agree: the lines are the
entries that a lookup below the path finds, each of them once, with different names, and with the
length of the file as the size.
-/

namespace ChalesOs

open FormatString NameTree

variable {s s' : Ramfs} {i j : Fin 64} {p name : CString} {progs : Programs} {run : RamfsRun}

/-- The lines of the loop of `ramfs_ls` that print an entry. -/
def ramfsLsLine (inode : Inode) : Option (List UInt8) :=
  if inode.type = .dir then
    (printk (cstr "  %s/\n") [.string inode.name]).map Prod.snd
  else
    (printk (cstr "  %s (%lu bytes)\n")
      [.string inode.name, .word (UInt32.ofNat inode.size)]).map Prod.snd

/-- The loop of `ramfs_ls`. -/
def ramfsLsLoop (s : Ramfs) (parentIno : ℕ) : List (Fin 64) → Option (List UInt8)
  | [] => some []
  | i :: is =>
    if (s.inodes i).ino ≠ 0 ∧ (s.inodes i).parentIno = parentIno then
      (ramfsLsLine (s.inodes i)).bind fun line => (ramfsLsLoop s parentIno is).map (line ++ ·)
    else ramfsLsLoop s parentIno is

/-- `ramfs_ls`: the characters it prints. -/
def ramfsLs (s : Ramfs) (path : Option CString) : Option (List UInt8) :=
  match ramfsFindInode s path with
  | none => (printk (cstr "[ramfs] directory not found\n") []).map Prod.snd
  | some i =>
    if (s.inodes i).type ≠ .dir then (printk (cstr "[ramfs] not a directory\n") []).map Prod.snd
    else ramfsLsLoop s (s.inodes i).ino (List.finRange 64)

/-! ### What it is meant to print -/

/-- The line of an entry: a directory with a slash, a file with its length. -/
def Ramfs.lsText (s : Ramfs) (j : Fin 64) : List UInt8 :=
  match (s.inodes j).type with
  | .dir => cstr "  " ++ (s.inodes j).name ++ cstr "/\n"
  | .file => cstr "  " ++ (s.inodes j).name ++ cstr " (" ++ decimal (s.fileBytes j).length ++
      cstr " bytes)\n"

/-- The entries of the directory with a number, in the order of the table. -/
def Ramfs.entries (s : Ramfs) (ino : ℕ) : List (Fin 64) :=
  (List.finRange 64).filter fun j => (s.inodes j).ino ≠ 0 ∧ (s.inodes j).parentIno = ino

/-- The listing of the directory in slot `i`, found by the path `p`, is right: every entry has its
line, the names are pairwise different, and the entries are what lookups below `p` find. -/
structure Ramfs.Lists (s : Ramfs) (p : CString) (i : Fin 64) : Prop where
  printed : ramfsLs s (some p) = some ((s.entries (s.inodes i).ino).flatMap s.lsText)
  names : ((s.entries (s.inodes i).ino).map fun j => (s.inodes j).name).Nodup
  found : ∀ name j, slash ∉ name → name ≠ [] → (0 : UInt8) ∉ name →
    (ramfsFindInode s (some (p ++ slash :: name)) = some j ↔
      j ∈ s.entries (s.inodes i).ino ∧ (s.inodes j).name = name)

/-! ### The lines -/

/-- What `printk` prints, for a format whose widths are small. -/
theorem printed_eq {format : CString} {args : List VaArg} {t : List UInt8}
    (ht : printkLanguage.text format args = some t) (hw : printkLanguage.WidthsLe 64 format)
    (hlen : t.length ≤ intMax) : (printk format args).map Prod.snd = some t := by
  rw [printk_eq ht hw hlen]
  rfl

/-- The line of a directory. -/
theorem printed_dirLine (hlen : name.length < ramfsMaxFilename) :
    (printk (cstr "  %s/\n") [.string name]).map Prod.snd =
      some (cstr "  " ++ name ++ cstr "/\n") := by
  have hsplit : cstr "  %s/\n" = cstr "  " ++ percent :: cstr "s/\n" := by decide
  have hs : printkLanguage.recognize (flags (cstr "s/\n")).rest =
      some (.string, cstr "/\n") := by decide
  have hblanks : ∀ c ∈ cstr "  ", c ≠ percent := by decide +kernel
  have hplain : ∀ c ∈ cstr "/\n", c ≠ percent := by decide +kernel
  rw [hsplit]
  refine printed_eq ?_ ?_ ?_
  · rw [Language.text_append hblanks, Language.text_directive (by decide) hs]
    change ((printkLanguage.text (cstr "/\n") []).map (name ++ ·)).map (cstr "  " ++ ·) = _
    rw [Language.text_plain hplain, Option.map_some, Option.map_some, List.append_assoc]
  · rw [Language.widthsLe_append hblanks, Language.widthsLe_directive (by decide) hs]
    exact ⟨by decide, Language.widthsLe_plain hplain⟩
  · rw [ramfsMaxFilename] at hlen
    have hlit : (cstr "  ").length = 2 ∧ (cstr "/\n").length = 2 := by decide
    rw [List.length_append, List.length_append, intMax]
    omega

/-- The line of a file. -/
theorem printed_fileLine (hlen : name.length < ramfsMaxFilename) (w : UInt32) :
    (printk (cstr "  %s (%lu bytes)\n") [.string name, .word w]).map Prod.snd =
      some (cstr "  " ++ name ++ cstr " (" ++ decimal w.toNat ++ cstr " bytes)\n") := by
  have hsplit : cstr "  %s (%lu bytes)\n" =
      cstr "  " ++ percent :: cstr "s (%lu bytes)\n" := by decide
  have hs : printkLanguage.recognize (flags (cstr "s (%lu bytes)\n")).rest =
      some (.string, cstr " (" ++ percent :: cstr "lu bytes)\n") := by decide
  have hlu : printkLanguage.recognize (flags (cstr "lu bytes)\n")).rest =
      some (.unsigned, cstr " bytes)\n") := by decide
  have hblanks : ∀ c ∈ cstr "  ", c ≠ percent := by decide +kernel
  have hparen : ∀ c ∈ cstr " (", c ≠ percent := by decide +kernel
  have hplain : ∀ c ∈ cstr " bytes)\n", c ≠ percent := by decide +kernel
  rw [hsplit]
  refine printed_eq ?_ ?_ ?_
  · rw [Language.text_append hblanks, Language.text_directive (by decide) hs]
    change ((printkLanguage.text (cstr " (" ++ percent :: cstr "lu bytes)\n")
      [.word w]).map (name ++ ·)).map (cstr "  " ++ ·) = _
    rw [Language.text_append hparen, Language.text_directive (by decide) hlu]
    change ((((printkLanguage.text (cstr " bytes)\n") []).map
      ((decimal w.toNat).leftpad 0 0x20 ++ ·)).map (cstr " (" ++ ·)).map (name ++ ·)).map
        (cstr "  " ++ ·) = _
    rw [Language.text_plain hplain, leftpad_zero]
    simp only [Option.map_some, List.append_assoc]
  · rw [Language.widthsLe_append hblanks, Language.widthsLe_directive (by decide) hs,
      Language.widthsLe_append hparen, Language.widthsLe_directive (by decide) hlu]
    exact ⟨by decide, by decide, Language.widthsLe_plain hplain⟩
  · rw [ramfsMaxFilename] at hlen
    have hlit : (cstr "  ").length = 2 ∧ (cstr " (").length = 2 ∧
        (cstr " bytes)\n").length = 8 := by decide
    have hdigits : (decimal w.toNat).length ≤ 10 :=
      (length_numeral_word (digitOf lowerDigits) le_rfl w).1
    simp only [List.length_append, intMax]
    omega

/-! ### Names are short -/

/-- Live names fit their field. -/
def ShortNames (s : Ramfs) : Prop :=
  ∀ i, (s.inodes i).ino ≠ 0 → (s.inodes i).name.length < ramfsMaxFilename

theorem ShortNames.treeStep {op : RamfsOp} (h : ShortNames s) (hs : TreeStep s op s') :
    ShortNames s' := by
  intro j hj
  rw [← Ramfs.tree_num] at hj
  rw [← Ramfs.tree_name]
  cases hs with
  | keep heq =>
    rw [heq.1] at hj ⊢
    exact h j hj
  | @create path i _ _ _ _ _ hlen _ _ htree _ =>
    rw [htree] at hj ⊢
    by_cases hji : j = i
    · rwa [hji, Function.update_self]
    · rw [Function.update_of_ne hji] at hj ⊢
      exact h j hj
  | @remove _ i _ _ htree _ =>
    rw [htree] at hj ⊢
    obtain ⟨hji, hlive⟩ := Live.of_clear (t := s.tree) (e := Inode.zero.entry) rfl hj
    rw [Function.update_of_ne hji]
    exact h j hlive

theorem shortNames_of_reachable {ok : RamfsRun → RamfsOp → Prop}
    (h : (ramfsSystem progs).ReachableBy ok run) : ShortNames run.fs :=
  ramfs_tree_invariant ShortNames (fun _ _ => True) (h.mono fun _ _ _ => trivial)
    (fun pool i hi => absurd (ramfsRoot_ino pool i) hi) (fun _ _ _ => trivial)
    fun _ _ _ hs _ hstep => hs.treeStep hstep

/-! ### The listing -/

/-- An entry has the line it is meant to have. -/
theorem ramfsLsLine_eq (hpool : PoolInv s) (hname : (s.inodes j).name.length < ramfsMaxFilename) :
    ramfsLsLine (s.inodes j) = some (s.lsText j) := by
  rw [ramfsLsLine, Ramfs.lsText]
  cases htype : (s.inodes j).type with
  | dir =>
    rw [if_pos rfl]
    exact printed_dirLine hname
  | file =>
    have hsize : (s.inodes j).size < UInt32.size := by
      have hle := (hpool.placed j).size_le.trans (hpool.placed j).capacity_le
      rw [ramfsMaxFilesize] at hle
      exact lt_of_le_of_lt hle (by decide)
    rw [if_neg (by decide), printed_fileLine hname, UInt32.toNat_ofNat_of_lt' hsize,
      hpool.length_fileBytes]

/-- The loop prints the entries. -/
theorem ramfsLsLoop_eq (hpool : PoolInv s) (hnames : ShortNames s) (ino : ℕ)
    (is : List (Fin 64)) : ramfsLsLoop s ino is =
      some ((is.filter fun j => (s.inodes j).ino ≠ 0 ∧
        (s.inodes j).parentIno = ino).flatMap s.lsText) := by
  induction is with
  | nil => rfl
  | cons j is ih =>
    rw [ramfsLsLoop]
    by_cases hj : (s.inodes j).ino ≠ 0 ∧ (s.inodes j).parentIno = ino
    · rw [if_pos hj, List.filter_cons_of_pos (by simpa using hj), List.flatMap_cons,
        ramfsLsLine_eq hpool (hnames j hj.1), Option.bind_some, ih, Option.map_some]
    · rw [if_neg hj, List.filter_cons_of_neg (by simpa using hj), ih]

/-- The names in one directory are pairwise different. -/
theorem NameInv.nodup_names (h : NameInv s) (ino : ℕ) :
    ((s.entries ino).map fun j => (s.inodes j).name).Nodup := by
  refine List.Nodup.map_on (fun j hj k hk hname => ?_) ((List.nodup_finRange 64).filter _)
  rw [Ramfs.entries, List.mem_filter, decide_eq_true_iff] at hj hk
  exact h.unique j k hj.2.1 hk.2.1 (hj.2.2.trans hk.2.2.symm) hname

/-- A directory found by a path is the one that lookups below the path walk to. -/
theorem PathInv.resolveDir_of_find (h : PathInv s) (hp : (0 : UInt8) ∉ p) (hlen : p.length ≤ 255)
    (hname : IsRootPath (some p) ∨ pathName p ≠ []) (hfind : ramfsFindInode s (some p) = some i)
    (hdir : (s.inodes i).type = .dir) (hmax : (s.inodes i).ino ≠ 0xFFFFFFFF) :
    ramfsResolveDir s p = some (s.inodes i).ino := by
  rw [h.ramfsResolveDir_iff hp]
  refine ⟨?_, hmax⟩
  by_cases hroot : IsRootPath (some p)
  · obtain rfl := Option.some_injective _ (hfind.symm.trans (ramfsFindInode_of_root hroot))
    have hsegs : dirSegments p = [] := by
      rcases hroot with hroot | hroot | hroot
      · simp at hroot
      · obtain rfl := Option.some_injective _ hroot
        decide
      · obtain rfl := Option.some_injective _ hroot
        decide
    rw [hsegs, walk_nil, h.root]
  have hname := hname.resolve_left hroot
  obtain ⟨hlive, heq, hparent⟩ := (h.ramfsFindInode_iff hp hroot).mp hfind
  have hcut : pathCut p = pathDir p :=
    List.take_of_length_le ((List.length_take_le' _ _).trans hlen)
  rw [hcut, h.ramfsResolveDir_iff fun hmem => hp (mem_of_mem_pathDir hmem)] at hparent
  rw [dirSegments_eq, dirSegments_of_not_mem (slash_notMem_pathName p) hname, walk_concat]
  exact ⟨i, hlive, (Ramfs.tree_isDir s i).mpr hdir, heq, rfl, hparent.1⟩

/-- What a lookup below a directory finds is an entry of the directory. -/
theorem PathInv.find_below_iff (h : PathInv s) (hp : (0 : UInt8) ∉ p) (hlen : p.length ≤ 255)
    {ino : ℕ} (hresolve : ramfsResolveDir s p = some ino) (hslash : slash ∉ name)
    (hne : name ≠ []) (hnul : (0 : UInt8) ∉ name) :
    ramfsFindInode s (some (p ++ slash :: name)) = some j ↔
      j ∈ s.entries ino ∧ (s.inodes j).name = name := by
  have hroot : ¬IsRootPath (some (p ++ slash :: name)) := by
    rintro (hroot | hroot | hroot)
    · simp at hroot
    · simp at hroot
    · have hlen := congrArg List.length (Option.some_injective _ hroot)
      have hpos := List.length_pos_iff.mpr hne
      rw [List.length_append, List.length_cons, List.length_singleton] at hlen
      omega
  have hmem : (0 : UInt8) ∉ p ++ slash :: name := by
    rw [List.mem_append, List.mem_cons]
    rintro (hmem | hmem | hmem)
    · exact hp hmem
    · exact absurd hmem (by decide)
    · exact hnul hmem
  rw [h.ramfsFindInode_iff hmem hroot, pathName_append hslash, pathCut, pathDir_append hslash,
    List.take_of_length_le hlen, hresolve, Ramfs.entries, List.mem_filter, decide_eq_true_iff,
    Option.some_inj]
  constructor
  · rintro ⟨hlive, hname, hparent⟩
    exact ⟨⟨List.mem_finRange j, hlive, hparent.symm⟩, hname⟩
  · rintro ⟨⟨-, hlive, hparent⟩, hname⟩
    exact ⟨hlive, hname, hparent.symm⟩

/-- **Listings agree with lookups.** In every run of calls with C strings that creates fewer than
`2 ^ 32 - 1` inodes, for every path of at most 255 bytes at which a directory is found, and that
does not end in a slash unless it is the root's. -/
theorem ramfsLs_lists
    (h : (ramfsSystem progs).ReachableBy (fun _ op => op.IsCString) run)
    (hcreated : run.created < 0xFFFFFFFF) (hp : (0 : UInt8) ∉ p) (hlen : p.length ≤ 255)
    (hname : IsRootPath (some p) ∨ pathName p ≠ [])
    (hfind : ramfsFindInode run.fs (some p) = some i) (hdir : (run.fs.inodes i).type = .dir) :
    run.fs.Lists p i := by
  have hpool := poolInv_of_reachable h
  have hpath := pathInv_of_reachable h
  obtain ⟨hid, hnext⟩ := counted_of_reachable h hcreated
  have hmax : (run.fs.inodes i).ino ≠ 0xFFFFFFFF := by
    have := hid.ino_lt i
    omega
  have hresolve := hpath.resolveDir_of_find hp hlen hname hfind hdir hmax
  refine ⟨?_, hpath.nodup_names _, fun name j hslash hne hnul =>
    hpath.find_below_iff hp hlen hresolve hslash hne hnul⟩
  rw [ramfsLs, hfind]
  dsimp only
  rw [if_neg (not_not.mpr hdir)]
  exact ramfsLsLoop_eq hpool (shortNames_of_reachable h) _ _

/-- `ramfsLs_lists` for the directory of the programs. -/
theorem ramfsLs_lists_sample : freshRun.fs.Lists (cstr "/bin") 1 :=
  ramfsLs_lists (.start freshRun_start) (by decide) (by decide) (by decide)
    (Or.inr (by decide +kernel)) (by decide +kernel) (by decide +kernel)

end ChalesOs
