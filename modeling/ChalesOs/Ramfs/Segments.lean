import ChalesOs.Ramfs.Path

/-!
# Paths as components

What a path spells, read component by component: `pathName` is the text behind the last slash,
`pathDir` the text in front of it, and `dirSegments` cuts such a text into its pieces between
slashes, without the empty ones. `ramfsSplitPath_eq` says how far the copy of the directory part
agrees with this: its first 255 bytes do.

The comparisons of strings are equalities for strings without `NUL`.
-/

namespace ChalesOs

/-- The text behind the last slash. -/
def pathName (path : CString) : CString := (path.splitOn slash).getLastD []

/-- The text in front of the last slash. -/
def pathDir (path : CString) : CString := path.take (path.length - (pathName path).length - 1)

/-- The pieces between slashes that are not empty. -/
def dirSegments (dir : CString) : List CString := (dir.splitOn slash).filter fun seg => seg ≠ []

variable {a b name seg path dir : CString} {i : ℕ} {found : Option ℕ}

/-! ### Comparing strings -/

theorem strcmp_self (a : CString) : strcmp a a = 0 := by
  induction a with
  | nil => rfl
  | cons c a ih => rw [strcmp, if_pos rfl, ih]

/-- A character that is not `NUL` differs from the end of a string. -/
theorem toNat_ne_zero_of_not_mem {c : UInt8} (h : (0 : UInt8) ∉ c :: a) : (c.toNat : ℤ) ≠ 0 := by
  have hc : c ≠ 0 := fun hc => h (hc ▸ List.mem_cons_self)
  rw [Ne, Int.natCast_eq_zero]
  exact fun hzero => hc (UInt8.toNat_inj.mp hzero)

/-- `strcmp` finds no difference between equal strings only. -/
theorem strcmp_eq_zero (ha : (0 : UInt8) ∉ a) (hb : (0 : UInt8) ∉ b) :
    strcmp a b = 0 ↔ a = b := by
  induction a generalizing b with
  | nil =>
    cases b with
    | nil => simp [strcmp]
    | cons d b =>
      have hd := toNat_ne_zero_of_not_mem hb
      simp only [strcmp, List.headD_nil, List.headD_cons, reduceCtorEq, iff_false]
      simpa using hd
  | cons c a ih =>
    cases b with
    | nil =>
      have hc := toNat_ne_zero_of_not_mem ha
      simp only [strcmp, List.headD_nil, List.headD_cons, reduceCtorEq, iff_false]
      simpa using hc
    | cons d b =>
      rw [strcmp, List.cons_eq_cons]
      split_ifs with hcd
      · rw [ih (fun h => ha (List.mem_cons_of_mem _ h)) (fun h => hb (List.mem_cons_of_mem _ h)),
          and_iff_right hcd]
      · simp only [hcd, false_and, iff_false]
        exact fun heq => hcd (UInt8.toNat_inj.mp (by omega))

/-- The comparison of `ramfs_resolve_dir`: equal up to the length of the segment, and ended
there. -/
theorem strncmp_eq_zero (hname : (0 : UInt8) ∉ name) (hseg : (0 : UInt8) ∉ seg) :
    strncmp name seg seg.length = 0 ∧ name.getD seg.length 0 = 0 ↔ name = seg := by
  induction seg generalizing name with
  | nil =>
    cases name with
    | nil => simp [strncmp]
    | cons c name =>
      have hc : c ≠ 0 := fun hc => hname (hc ▸ List.mem_cons_self)
      simp [strncmp, hc]
  | cons d seg ih =>
    cases name with
    | nil =>
      have hd := toNat_ne_zero_of_not_mem hseg
      simp only [List.length_cons, strncmp, List.headD_nil, List.headD_cons, reduceCtorEq,
        iff_false, not_and]
      intro h
      exact absurd (by simpa using h) hd
    | cons c name =>
      rw [List.length_cons, strncmp, List.getD_cons_succ, List.cons_eq_cons]
      split_ifs with hcd
      · rw [ih (fun h => hname (List.mem_cons_of_mem _ h))
          (fun h => hseg (List.mem_cons_of_mem _ h)), and_iff_right hcd]
      · simp only [hcd, false_and, iff_false, not_and]
        intro heq
        exact absurd (UInt8.toNat_inj.mp (by omega)) hcd

/-! ### The last slash -/

theorem lastSlash_of_not_mem (h : slash ∉ a) : lastSlash i found a = found := by
  induction a generalizing i found with
  | nil => rfl
  | cons c a ih =>
    have hc : c ≠ slash := fun hc => h (hc ▸ List.mem_cons_self)
    rw [lastSlash, if_neg hc, ih fun hmem => h (List.mem_cons_of_mem _ hmem)]

theorem lastSlash_append (h : slash ∉ name) :
    lastSlash i found (dir ++ slash :: name) = some (i + dir.length) := by
  induction dir generalizing i found with
  | nil => rw [List.nil_append, lastSlash, if_pos rfl, lastSlash_of_not_mem h]; rfl
  | cons c dir ih =>
    rw [List.cons_append, lastSlash, ih, List.length_cons]
    congr 1
    omega

/-- A path has no slash or a last one. -/
theorem slash_cases (path : CString) :
    slash ∉ path ∨ ∃ dir name, path = dir ++ slash :: name ∧ slash ∉ name := by
  induction path with
  | nil => exact Or.inl List.not_mem_nil
  | cons c path ih =>
    rcases ih with hnot | ⟨dir, name, rfl, hname⟩
    · by_cases hc : slash = c
      · exact Or.inr ⟨[], path, by rw [hc]; rfl, hnot⟩
      · exact Or.inl (List.not_mem_cons_of_ne_of_not_mem hc hnot)
    · exact Or.inr ⟨c :: dir, name, rfl, hname⟩

theorem pathName_of_not_mem (h : slash ∉ path) : pathName path = path := by
  rw [pathName, List.splitOn_eq_singleton h]
  rfl

theorem pathName_append (h : slash ∉ name) : pathName (dir ++ slash :: name) = name := by
  rw [pathName, List.splitOn_append_cons_self, List.splitOn_eq_singleton h,
    List.getLastD_concat]

theorem pathDir_of_not_mem (h : slash ∉ path) : pathDir path = [] := by
  rw [pathDir, pathName_of_not_mem h, Nat.sub_self]
  rfl

theorem pathDir_append (h : slash ∉ name) : pathDir (dir ++ slash :: name) = dir := by
  rw [pathDir, pathName_append h, List.length_append, List.length_cons]
  exact List.take_left' (by omega)

/-- **`ramfs_split_path`** returns the name, and the first 255 bytes of the directory part. -/
theorem ramfsSplitPath_eq (path : CString) :
    ramfsSplitPath path = ((pathDir path).take 255, pathName path) := by
  rcases slash_cases path with h | ⟨dir, name, rfl, h⟩
  · rw [ramfsSplitPath, lastSlash_of_not_mem h, pathDir_of_not_mem h, pathName_of_not_mem h]
    rfl
  · rw [ramfsSplitPath, lastSlash_append h, pathDir_append h, pathName_append h, Nat.zero_add]
    have htake : (dir ++ slash :: name).take
        (if dir.length ≥ ramfsMaxFilename then ramfsMaxFilename - 1 else dir.length) =
        dir.take 255 := by
      rw [ramfsMaxFilename]
      split_ifs with hlen
      · rw [List.take_append_of_le_length (by omega)]
      · rw [List.take_left, List.take_of_length_le (by omega)]
    have hdrop : (dir ++ slash :: name).drop (dir.length + 1) = name := by
      rw [List.append_cons, List.drop_left' (by simp)]
    exact Prod.ext htake hdrop

/-- A name has no slash. -/
theorem slash_notMem_pathName (path : CString) : slash ∉ pathName path := by
  rcases slash_cases path with h | ⟨dir, name, rfl, h⟩
  · rwa [pathName_of_not_mem h]
  · rwa [pathName_append h]

/-- The parts of a path consist of its characters. -/
theorem mem_of_mem_pathName {c : UInt8} (h : c ∈ pathName path) : c ∈ path := by
  rcases slash_cases path with hs | ⟨dir, name, rfl, hs⟩
  · rwa [pathName_of_not_mem hs] at h
  · rw [pathName_append hs] at h
    exact List.mem_append_right _ (List.mem_cons_of_mem _ h)

theorem mem_of_mem_pathDir {c : UInt8} (h : c ∈ pathDir path) : c ∈ path :=
  List.mem_of_mem_take h

theorem mem_of_mem_splitOn {c : UInt8} (hseg : seg ∈ dir.splitOn slash) (hc : c ∈ seg) :
    c ∈ dir := by
  induction dir generalizing seg with
  | nil =>
    rw [List.splitOn_nil, List.mem_singleton] at hseg
    rwa [hseg] at hc
  | cons d dir ih =>
    rw [List.splitOn_cons_eq_if_modifyHead] at hseg
    split_ifs at hseg
    · rcases List.mem_cons.mp hseg with rfl | hseg
      · exact absurd hc List.not_mem_nil
      · exact List.mem_cons_of_mem _ (ih hseg hc)
    · obtain ⟨first, segs, hsplit⟩ := List.exists_cons_of_ne_nil (List.splitOn_ne_nil slash dir)
      rw [hsplit] at hseg ih
      rcases List.mem_cons.mp hseg with rfl | hseg
      · rcases List.mem_cons.mp hc with rfl | hc
        · exact List.mem_cons_self
        · exact List.mem_cons_of_mem _ (ih List.mem_cons_self hc)
      · exact List.mem_cons_of_mem _ (ih (List.mem_cons_of_mem _ hseg) hc)

/-! ### Putting components together -/

/-- The text in front of a slash contributes its pieces, the text behind it contributes its own. -/
theorem dirSegments_append (a b : CString) :
    dirSegments (a ++ slash :: b) = dirSegments a ++ dirSegments b := by
  rw [dirSegments, List.splitOn_append_cons_self, List.filter_append]
  rfl

/-- Slashes in front do not count. -/
theorem dirSegments_replicate (n : ℕ) (a : CString) :
    dirSegments (List.replicate n slash ++ a) = dirSegments a := by
  induction n with
  | zero => rfl
  | succ n ih => exact (dirSegments_append [] _).trans ih

theorem dirSegments_of_not_mem (h : slash ∉ name) (hne : name ≠ []) :
    dirSegments name = [name] := by
  rw [dirSegments, List.splitOn_eq_singleton h, List.filter_singleton]
  simp [hne]

/-- The path with the given components, each behind one slash and as many more as its number
says. -/
def spellPath : List (ℕ × CString) → CString
  | [] => []
  | (gap, name) :: comps => List.replicate (gap + 1) slash ++ (name ++ spellPath comps)

theorem spellPath_concat (comps : List (ℕ × CString)) (gap : ℕ) (name : CString) :
    spellPath (comps ++ [(gap, name)]) =
      spellPath comps ++ List.replicate gap slash ++ slash :: name := by
  induction comps with
  | nil => simp [spellPath, List.replicate_succ']
  | cons comp comps ih => simp [spellPath, ih]

theorem mem_of_mem_spellPath {c : UInt8} {comps : List (ℕ × CString)} (h : c ∈ spellPath comps) :
    c = slash ∨ ∃ comp ∈ comps, c ∈ comp.2 := by
  induction comps with
  | nil => exact absurd h List.not_mem_nil
  | cons comp comps ih =>
    rw [spellPath, List.mem_append, List.mem_append] at h
    rcases h with h | h | h
    · exact Or.inl (List.eq_of_mem_replicate h)
    · exact Or.inr ⟨comp, List.mem_cons_self, h⟩
    · rcases ih h with h | ⟨comp', hmem, h⟩
      · exact Or.inl h
      · exact Or.inr ⟨comp', List.mem_cons_of_mem _ hmem, h⟩

/-- **Splitting undoes spelling.** -/
theorem dirSegments_spellPath {comps : List (ℕ × CString)} (gap : ℕ)
    (h : ∀ comp ∈ comps, slash ∉ comp.2 ∧ comp.2 ≠ []) :
    dirSegments (spellPath comps ++ List.replicate gap slash) = comps.map Prod.snd := by
  induction comps with
  | nil => simpa [spellPath, dirSegments] using dirSegments_replicate gap []
  | cons comp comps ih =>
    have ih := ih fun comp hcomp => h comp (List.mem_cons_of_mem _ hcomp)
    obtain ⟨hslash, hne⟩ := h comp List.mem_cons_self
    rw [spellPath, List.append_assoc, List.append_assoc, dirSegments_replicate, List.map_cons,
      ← ih]
    -- behind the name the text ends or goes on with a slash
    have hrest : spellPath comps ++ List.replicate gap slash = [] ∨
        ∃ rest, spellPath comps ++ List.replicate gap slash = slash :: rest := by
      cases comps with
      | nil =>
        cases gap with
        | zero => exact Or.inl rfl
        | succ gap => exact Or.inr ⟨_, rfl⟩
      | cons comp' comps => exact Or.inr ⟨_, rfl⟩
    rcases hrest with hrest | ⟨rest, hrest⟩
    · rw [hrest, List.append_nil, dirSegments_of_not_mem hslash hne]
      rfl
    · rw [hrest, dirSegments_append, dirSegments_of_not_mem hslash hne]
      exact congrArg (comp.2 :: ·) (dirSegments_append [] rest).symm

end ChalesOs
