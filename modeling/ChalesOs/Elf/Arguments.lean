import ChalesOs.Elf.UserStack

/-!
# The arguments of a program, from its caller to its `main`

`copyStringsMem` is `copy_strings` as it reads the caller's memory and fills `kargs`, byte by byte;
`copyArgs` is its two calls in `exec_run`. They agree with `copyStrings`, which only counts
(`copyStringsMem_map`), and what they copy can be read back from `kargs`.

`crt0Start` is what `_start` finds on the stack that `elfBuildUserStack` has built.
`execArguments` follows the arguments all the way.
-/

namespace ChalesOs

open ByteMemory

/-! ### `copy_strings` in memory -/

/-- The inner loop of `copy_strings`: the string at the address `s` is appended, with its `NUL`, to
the `used` bytes in `kargs`; `none` for -1. -/
def copyChars (m kargs : Mem) (used s : ℕ) : Option (Mem × ℕ) :=
  if used ≥ execArgBytes then none
  else
    let c := m s
    let kargs := write kargs used [c]
    if c = 0 then some (kargs, used + 1) else copyChars m kargs (used + 1) (s + 1)
termination_by execArgBytes - used

/-- The outer loop of `copy_strings` from string number `n` on, whose pointer is at the address
`src`: the buffer, the offsets of the copies in it, and the bytes in use. -/
def copyStringsLoop (m kargs : Mem) (used n src : ℕ) : Option (Mem × List ℕ × ℕ) :=
  if loadWord m src = 0 then some (kargs, [], used)
  else if n ≥ execMaxArgs then none
  else
    (copyChars m kargs used (loadWord m src)).bind fun r =>
      (copyStringsLoop m r.1 r.2 (n + 1) (src + 4)).map fun r' => (r'.1, used :: r'.2.1, r'.2.2)
termination_by execMaxArgs - n

/-- `copy_strings`; `src` is 0 for `NULL`. -/
def copyStringsMem (m kargs : Mem) (used src : ℕ) : Option (Mem × List ℕ × ℕ) :=
  if src ≠ 0 then copyStringsLoop m kargs used 0 src else some (kargs, [], used)

/-- The two calls of `copy_strings` in `exec_run`: the buffer, `kargv` and `kenvp`. -/
def copyArgs (m kargs : Mem) (argv envp : ℕ) : Option (Mem × List ℕ × List ℕ) :=
  (copyStringsMem m kargs 0 argv).bind fun r =>
    (copyStringsMem m r.1 r.2.2 envp).map fun r' => (r'.1, r.2.1, r'.2.1)

/-- `argv` or `envp` as a caller passes them: `NULL`, or an array of strings. -/
def ArgumentsAt (m : Mem) (a : ℕ) (ss : List CString) : Prop :=
  if a ≠ 0 then StringArrayAt m a ss else ss = []

instance ArgumentsAt.decidable (m : Mem) (a : ℕ) (ss : List CString) :
    Decidable (ArgumentsAt m a ss) :=
  inferInstanceAs (Decidable (if a ≠ 0 then StringArrayAt m a ss else ss = []))

/-- What the initial stack takes: the strings, the two arrays with their `NULL`, and `argc`. -/
def userStackSize (argv envp : List CString) : ℕ :=
  stringsTotalSize argv + stringsTotalSize envp + (argv.length + 1) * 4 + (envp.length + 1) * 4 + 4

/-- What `_start` passes to `main`: `argc`, `argv` and `envp`. -/
def crt0Start (m : Mem) (esp : ℕ) : ℕ × ℕ × ℕ :=
  let eax := loadWord m esp
  let ebx := u32 (esp + 4)
  (eax, ebx, u32 (4 + ebx + eax * 4))

/-- `main` gets these strings, and no others, from the stack at `esp`. -/
def MainReceives (m : Mem) (esp : ℕ) (argv envp : List CString) : Prop :=
  (crt0Start m esp).1 = argv.length ∧
    (∀ ss, StringArrayAt m (crt0Start m esp).2.1 ss ↔ ss = argv) ∧
    ∀ ss, StringArrayAt m (crt0Start m esp).2.2 ss ↔ ss = envp

variable {m kargs kargs' : Mem} {used used' n src s : ℕ} {str : CString} {ss : List CString}
  {out : List ℕ}

/-- A string is copied with its `NUL`, if there is room. -/
theorem copyChars_eq (h : StringAt m s str) :
    copyChars m kargs used s =
      if used + str.length + 1 > execArgBytes then none
      else some (write kargs used (str ++ [0]), used + str.length + 1) := by
  induction str generalizing kargs used s with
  | nil =>
    rw [copyChars, show m s = 0 from h, if_pos rfl, List.length_nil, List.nil_append]
    split_ifs <;> first | rfl | omega
  | cons c str ih =>
    obtain ⟨hc, hne, hrest⟩ := h
    rw [copyChars, hc, if_neg hne, ih hrest, ← write_cons, List.length_cons,
      show used + 1 + str.length + 1 = used + (str.length + 1) + 1 by omega]
    split_ifs <;> first | rfl | omega

/-- The copies that the loop has made: each is behind the bytes in use before, and there is nothing
else that changes. -/
structure Copied (kargs kargs' : Mem) (used used' : ℕ) (out : List ℕ) (ss : List CString) :
    Prop where
  le : used ≤ used'
  eqOn : Set.EqOn kargs' kargs (Set.Ico used used')ᶜ
  strings : List.Forall₂ (fun o s => o + s.length < used' ∧ StringAt kargs' o s) out ss

theorem Copied.nil : Copied kargs kargs used used [] [] := ⟨le_rfl, Set.eqOn_refl _ _, .nil⟩

/-- Copying another string in front leaves the copies readable. -/
theorem Copied.cons (hs : (0 : UInt8) ∉ str)
    (h : Copied (write kargs used (str ++ [0])) kargs' (used + str.length + 1) used' out ss) :
    Copied kargs kargs' used used' (used :: out) (str :: ss) := by
  have hle := h.le
  refine ⟨by omega, (h.eqOn.mono ?_).trans (eqOn_write.mono ?_), .cons ⟨by omega, ?_⟩ h.strings⟩
  · exact Set.compl_subset_compl.mpr (Set.Ico_subset_Ico (by omega) le_rfl)
  · refine Set.compl_subset_compl.mpr (Set.Ico_subset_Ico le_rfl ?_)
    rw [List.length_append, List.length_singleton]
    omega
  · -- the strings behind it are copied above it
    refine (stringAt_write hs).congr fun b _ hb => h.eqOn fun hmem => ?_
    have := hmem.1
    omega

/-- Copying further strings leaves the copies readable. -/
theorem Copied.strings_congr {kargs₂ : Mem} {used₂ : ℕ} (h : Copied kargs kargs' used used' out ss)
    (heq : Set.EqOn kargs₂ kargs' (Set.Ico used' used₂)ᶜ) :
    List.Forall₂ (StringAt kargs₂) out ss :=
  h.strings.imp fun o s hs => hs.2.congr fun b _ hb => heq fun hmem => by
    have := hmem.1
    have := hs.1
    omega

/-- `copy_strings` in memory counts as `copyStrings` does. -/
theorem copyStringsLoop_map (h : StringArrayAt m src ss) :
    (copyStringsLoop m kargs used n src).map (fun r => r.2.2) = copyStrings n used ss := by
  induction ss generalizing kargs used n src with
  | nil =>
    rw [copyStringsLoop, if_pos (show loadWord m src = 0 from h)]
    rfl
  | cons str ss ih =>
    obtain ⟨hload, hstr, hrest⟩ := h
    rw [copyStringsLoop, if_neg hload, copyStrings, copyChars_eq hstr]
    split_ifs
    · rfl
    · rfl
    · rw [Option.bind_some, Option.map_map]
      exact ih hrest

/-- What `copy_strings` has copied. -/
theorem copyStringsLoop_copied (h : StringArrayAt m src ss)
    (hrun : copyStringsLoop m kargs used n src = some (kargs', out, used')) :
    Copied kargs kargs' used used' out ss := by
  induction ss generalizing kargs used n src out with
  | nil =>
    rw [copyStringsLoop, if_pos (show loadWord m src = 0 from h)] at hrun
    cases hrun
    exact .nil
  | cons str ss ih =>
    obtain ⟨hload, hstr, hrest⟩ := h
    rw [copyStringsLoop, if_neg hload, copyChars_eq hstr] at hrun
    split_ifs at hrun
    · cases hrun
    rw [Option.bind_some, Option.map_eq_some_iff] at hrun
    obtain ⟨⟨kargs₁, out₁, used₁⟩, htail, heq⟩ := hrun
    cases heq
    exact (ih hrest htail).cons hstr.zero_notMem

theorem copyStringsMem_map (h : ArgumentsAt m src ss) (kargs : Mem) (used : ℕ) :
    (copyStringsMem m kargs used src).map (fun r => r.2.2) = copyStrings 0 used ss := by
  rw [ArgumentsAt] at h
  rw [copyStringsMem]
  split_ifs at h ⊢
  · exact copyStringsLoop_map h
  · rw [h]
    rfl

theorem copyStringsMem_copied (h : ArgumentsAt m src ss)
    (hrun : copyStringsMem m kargs used src = some (kargs', out, used')) :
    Copied kargs kargs' used used' out ss := by
  rw [ArgumentsAt] at h
  rw [copyStringsMem] at hrun
  split_ifs at h hrun
  · exact copyStringsLoop_copied h hrun
  · cases h
    cases hrun
    exact .nil

/-! ### From `execv` to `main` -/

section Copies

variable {argv envp : ℕ} {as es : List CString}

/-- Both arrays are copied exactly when the byte counts say so. -/
theorem copyArgs_isSome_iff (hargv : ArgumentsAt m argv as) (henvp : ArgumentsAt m envp es) :
    (copyArgs m kargs argv envp).isSome ↔ as.length ≤ execMaxArgs ∧ es.length ≤ execMaxArgs ∧
      stringsTotalSize as + stringsTotalSize es ≤ execArgBytes := by
  have hcount : (copyArgs m kargs argv envp).isSome =
      ((copyStrings 0 0 as).bind fun used => copyStrings 0 used es).isSome := by
    rw [copyArgs, ← copyStringsMem_map hargv kargs]
    cases copyStringsMem m kargs 0 argv with
    | none => rfl
    | some r =>
      rw [Option.map_some, Option.bind_some, Option.bind_some, Option.isSome_map,
        ← copyStringsMem_map henvp r.1, Option.isSome_map]
  rw [hcount, Option.isSome_iff_exists]
  simp only [copyStrings_bind_eq_some_iff, exists_eq_left]

/-- The copies of both arrays can be read back from `kargs`. -/
theorem copyArgs_stringAt {kargv kenvp : List ℕ} (hargv : ArgumentsAt m argv as)
    (henvp : ArgumentsAt m envp es) (h : copyArgs m kargs argv envp = some (kargs', kargv, kenvp)) :
    List.Forall₂ (StringAt kargs') kargv as ∧ List.Forall₂ (StringAt kargs') kenvp es := by
  obtain ⟨⟨kargs₁, out₁, used₁⟩, h₁, h⟩ := Option.bind_eq_some_iff.mp h
  obtain ⟨⟨kargs₂, out₂, used₂⟩, h₂, heq⟩ := Option.map_eq_some_iff.mp h
  cases heq
  have hcopied := copyStringsMem_copied henvp h₂
  refine ⟨(copyStringsMem_copied hargv h₁).strings_congr hcopied.eqOn, ?_⟩
  exact hcopied.strings.imp fun _ _ hs => hs.2

end Copies

section Stack

variable {stackBase stackTop : ℕ} {argv envp : List CString}

/-- `elf_build_user_stack` refuses what does not fit. -/
theorem elfBuildUserStack_eq_none (hsize : userStackSize argv envp < 0x100000000)
    (h : stackTop - stackBase < userStackSize argv envp) :
    elfBuildUserStack m stackBase stackTop argv envp = none := by
  rw [elfBuildUserStack, ← userStackSize, u32_of_lt hsize, if_pos h]

/-- What fits between aligned bounds is found by `main`: the padding behind the strings takes
what is left up to the next multiple of four, which the bounds have to spare. -/
theorem elfBuildUserStack_mainReceives (hargv : ∀ s ∈ argv, (0 : UInt8) ∉ s)
    (henvp : ∀ s ∈ envp, (0 : UInt8) ∉ s) (hbase : 4 ∣ stackBase) (htop : stackTop < 0x100000000)
    (hfit : userStackSize argv envp ≤ stackTop - stackBase) :
    ∃ m' esp, elfBuildUserStack m stackBase stackTop argv envp = some (m', esp) ∧
      Set.EqOn m' m (Set.Ico stackBase stackTop)ᶜ ∧ stackBase ≤ esp ∧ 4 ∣ esp ∧
      MainReceives m' esp argv envp := by
  rw [userStackSize] at hfit
  obtain ⟨m', esp, hstack, hesp, heq, hread⟩ := elfBuildUserStack_spec (m := m) hfit (by omega)
  obtain ⟨hargc, hargvAt, henvpAt⟩ := hread hargv henvp htop
  have hle : stackBase ≤ esp := by omega
  refine ⟨m', esp, hstack, heq.mono ?_, hle, by omega, ?_⟩
  · exact Set.compl_subset_compl.mpr (Set.Ico_subset_Ico hle le_rfl)
  have hargvPtr : (crt0Start m' esp).2.1 = esp + 4 := u32_of_lt (by omega)
  have henvpPtr : (crt0Start m' esp).2.2 = esp + 4 + 4 * (argv.length + 1) := by
    change u32 (4 + (crt0Start m' esp).2.1 + loadWord m' esp * 4) = _
    rw [hargvPtr, hargc, u32_of_lt (by omega)]
    omega
  refine ⟨hargc, fun ss => ?_, fun ss => ?_⟩
  · rw [hargvPtr]
    exact ⟨fun h => h.unique hargvAt, fun h => h ▸ hargvAt⟩
  · rw [henvpPtr]
    exact ⟨fun h => h.unique henvpAt, fun h => h ▸ henvpAt⟩

end Stack

/-- **Arguments survive `execv`.** `copy_strings` accepts two arrays exactly when each has at most
32 strings and they take at most 4096 bytes together, and copies what it accepts. Whatever has
been copied, `elf_build_user_stack` refuses it exactly when it does not fit, and otherwise writes
to the stack only, from where `main` receives it. -/
theorem execArguments :
    (∀ m kargs argv envp as es, ArgumentsAt m argv as → ArgumentsAt m envp es →
      ((copyArgs m kargs argv envp).isSome ↔ as.length ≤ execMaxArgs ∧ es.length ≤ execMaxArgs ∧
        stringsTotalSize as + stringsTotalSize es ≤ execArgBytes) ∧
      ∀ kargs' kargv kenvp, copyArgs m kargs argv envp = some (kargs', kargv, kenvp) →
        List.Forall₂ (StringAt kargs') kargv as ∧ List.Forall₂ (StringAt kargs') kenvp es) ∧
    ∀ m stackBase stackTop argv envp, (∀ s ∈ argv, (0 : UInt8) ∉ s) →
      (∀ s ∈ envp, (0 : UInt8) ∉ s) → 4 ∣ stackBase → 4 ∣ stackTop → 0 < stackBase →
      stackBase ≤ stackTop → stackTop < 0x100000000 → userStackSize argv envp < 0x100000000 →
      (elfBuildUserStack m stackBase stackTop argv envp = none ↔
        userStackSize argv envp > stackTop - stackBase) ∧
      ∀ m' esp, elfBuildUserStack m stackBase stackTop argv envp = some (m', esp) →
        Set.EqOn m' m (Set.Ico stackBase stackTop)ᶜ ∧ 4 ∣ esp ∧ 0 < esp ∧
          MainReceives m' esp argv envp := by
  refine ⟨fun m kargs argv envp as es hargv henvp => ⟨copyArgs_isSome_iff hargv henvp,
    fun kargs' kargv kenvp h => copyArgs_stringAt hargv henvp h⟩, ?_⟩
  intro m stackBase stackTop argv envp hargv henvp hbase _ hpos _ htop hsize
  by_cases hfit : userStackSize argv envp ≤ stackTop - stackBase
  · obtain ⟨m', esp, hstack, heq, hle, halign, hmain⟩ :=
      elfBuildUserStack_mainReceives (m := m) hargv henvp hbase htop hfit
    rw [hstack]
    refine ⟨iff_of_false (Option.some_ne_none _) (not_lt.mpr hfit), fun m₂ esp₂ h => ?_⟩
    cases h
    exact ⟨heq, halign, by omega, hmain⟩
  · rw [elfBuildUserStack_eq_none hsize (not_le.mp hfit)]
    exact ⟨iff_of_true rfl (not_le.mp hfit), fun _ _ h => by cases h⟩

/-- `execv("/ls", { "ls", "", NULL }, NULL)`, with an exact fit on the stack. -/
theorem execArguments_sample :
    let m := write (write (fun _ => 0) 0x100 (leWord 0x200 ++ leWord 0x203)) 0x200 [108, 115, 0, 0]
    (copyArgs m m 0x100 0).isSome ∧
      ∃ m' esp, elfBuildUserStack m 0x1000 0x1018 [[108, 115], []] [] = some (m', esp) ∧
        MainReceives m' esp [[108, 115], []] [] := by
  intro m
  obtain ⟨hsome, -⟩ := execArguments.1 m m 0x100 0 [[108, 115], []] [] (by decide) (by decide)
  obtain ⟨hnone, hmain⟩ := execArguments.2 m 0x1000 0x1018 [[108, 115], []] [] (by decide)
    (by decide) (by decide) (by decide) (by decide) (by decide) (by decide) (by decide)
  refine ⟨hsome.mpr (by decide), ?_⟩
  obtain ⟨⟨m', esp⟩, hstack⟩ := Option.ne_none_iff_exists'.mp fun h =>
    absurd (hnone.mp h) (by decide)
  exact ⟨m', esp, hstack, (hmain m' esp hstack).2.2.2⟩

end ChalesOs
