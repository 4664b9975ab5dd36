import Mathlib.Algebra.GroupWithZero.Nat
import Mathlib.Data.Set.Function
import Mathlib.Data.List.Forall2
import ChalesOs.Memory.Strings

/-!
# The initial stack of a program

`copyStrings` is the copy of `argv` and `envp` into the kernel's buffer, which both share: it
counts strings and bytes and refuses what does not fit. `elfBuildUserStack` then lays the strings
out downwards from the top of the user stack, followed by the two pointer arrays and `argc`.

`elfBuildUserStack_spec` says what is left in memory: nothing outside the data changes, and the two
arrays and their strings can be read back above the stack pointer. The alignment needs up to three
bytes that the size check does not count; they are there when the region has them to spare
(`elfBuildUserStack_eqOn`), or when its ends are aligned.
-/

namespace ChalesOs

open ByteMemory

/-- `EXEC_MAX_ARGS`. -/
def execMaxArgs : ℕ := 32

/-- `EXEC_ARG_BYTES`. -/
def execArgBytes : ℕ := 4096

/-- `copy_strings` from string number `n` on, with `used` bytes of the buffer in use: the bytes
in use afterwards, `none` for -1. -/
def copyStrings : (n used : ℕ) → List CString → Option ℕ
  | _, used, [] => some used
  | n, used, s :: ss =>
    if n ≥ execMaxArgs then none
    else if used + s.length + 1 > execArgBytes then none
    else copyStrings (n + 1) (used + s.length + 1) ss

/-- `strings_total_size`. -/
def stringsTotalSize (ss : List CString) : ℕ := (ss.map fun s => s.length + 1).sum

/-- The copy of strings below `cursor`, each below the one before it: the memory, the new
cursor, and the addresses of the copies. -/
def pushStrings : Mem → (cursor : ℕ) → List CString → Mem × ℕ × List ℕ
  | m, cursor, [] => (m, cursor, [])
  | m, cursor, s :: ss =>
    let cursor := cursor - (s.length + 1)
    let (m, cursor', copied) := pushStrings (write m cursor (s ++ [0])) cursor ss
    (m, cursor', cursor :: copied)

/-- The copy of words below `cursor`, the last one first. -/
def pushWords : Mem → (cursor : ℕ) → List ℕ → Mem × ℕ
  | m, cursor, [] => (m, cursor)
  | m, cursor, w :: ws =>
    let (m, cursor) := pushWords m cursor ws
    (write m (cursor - 4) (leWord w), cursor - 4)

/-- `elf_build_user_stack`: the memory and the stack pointer, `none` for 0. -/
def elfBuildUserStack (m : Mem) (stackBase stackTop : ℕ) (argv envp : List CString) :
    Option (Mem × ℕ) :=
  let total := u32 (stringsTotalSize argv + stringsTotalSize envp + (argv.length + 1) * 4 +
    (envp.length + 1) * 4 + 4)
  if total > stackTop - stackBase then none
  else
    let (m, cursor, argvCopied) := pushStrings m stackTop argv
    let (m, cursor, envpCopied) := pushStrings m cursor envp
    let cursor := cursor / 4 * 4
    let (m, cursor) := pushWords m cursor (envpCopied ++ [0])
    let (m, cursor) := pushWords m cursor (argvCopied ++ [0])
    some (write m (cursor - 4) (leWord argv.length), cursor - 4)

/-! ### What fits -/

@[simp]
theorem stringsTotalSize_cons (s : CString) (ss : List CString) :
    stringsTotalSize (s :: ss) = s.length + 1 + stringsTotalSize ss := by
  rw [stringsTotalSize, List.map_cons, List.sum_cons, stringsTotalSize]

/-- `copy_strings` returns what it has read if there are not too many strings or bytes. -/
theorem copyStrings_eq_some_iff {n used used' : ℕ} {ss : List CString} (hn : n ≤ execMaxArgs)
    (hused : used ≤ execArgBytes) :
    copyStrings n used ss = some used' ↔ used' = used + stringsTotalSize ss ∧
      n + ss.length ≤ execMaxArgs ∧ used + stringsTotalSize ss ≤ execArgBytes := by
  induction ss generalizing n used with
  | nil =>
    rw [copyStrings, Option.some_inj]
    exact ⟨fun h => ⟨h.symm, hn, hused⟩, fun h => h.1.symm⟩
  | cons s ss ih =>
    rw [copyStrings, stringsTotalSize_cons, List.length_cons]
    split_ifs with hmax hbytes
    · simp only [false_iff]
      omega
    · simp only [false_iff]
      omega
    · rw [ih (by omega) (by omega)]
      omega

/-- The two calls of `copy_strings` share the bytes, but not the count of the strings. -/
theorem copyStrings_bind_eq_some_iff {used : ℕ} {argv envp : List CString} :
    ((copyStrings 0 0 argv).bind fun used => copyStrings 0 used envp) = some used ↔
      used = stringsTotalSize argv + stringsTotalSize envp ∧ argv.length ≤ execMaxArgs ∧
        envp.length ≤ execMaxArgs ∧
        stringsTotalSize argv + stringsTotalSize envp ≤ execArgBytes := by
  simp only [Option.bind_eq_some_iff,
    copyStrings_eq_some_iff (Nat.zero_le execMaxArgs) (Nat.zero_le execArgBytes), Nat.zero_add]
  constructor
  · rintro ⟨used₁, ⟨rfl, hargc, hargv⟩, henvp⟩
    obtain ⟨rfl, henvc, hbytes⟩ := (copyStrings_eq_some_iff (Nat.zero_le _) hargv).mp henvp
    exact ⟨rfl, hargc, by omega, hbytes⟩
  · rintro ⟨rfl, hargc, henvc, hbytes⟩
    refine ⟨_, ⟨rfl, hargc, by omega⟩, ?_⟩
    exact (copyStrings_eq_some_iff (Nat.zero_le _) (by omega)).mpr ⟨rfl, by omega, hbytes⟩

/-! ### The writes stay inside the stack -/

theorem pushStrings_cons (m : Mem) (cursor : ℕ) (s : CString) (ss : List CString) :
    pushStrings m cursor (s :: ss) =
      let r := pushStrings (write m (cursor - (s.length + 1)) (s ++ [0]))
        (cursor - (s.length + 1)) ss
      (r.1, r.2.1, (cursor - (s.length + 1)) :: r.2.2) := rfl

theorem pushWords_cons (m : Mem) (cursor w : ℕ) (ws : List ℕ) :
    pushWords m cursor (w :: ws) =
      let r := pushWords m cursor ws
      (storeWord r.1 (r.2 - 4) w, r.2 - 4) := rfl

/-- The strings end up in front of `cursor`, with one address for each. -/
theorem pushStrings_spec (ss : List CString) (m : Mem) (cursor : ℕ)
    (h : stringsTotalSize ss ≤ cursor) :
    (pushStrings m cursor ss).2.1 + stringsTotalSize ss = cursor ∧
      (pushStrings m cursor ss).2.2.length = ss.length ∧
      Set.EqOn (pushStrings m cursor ss).1 m (Set.Ico (pushStrings m cursor ss).2.1 cursor)ᶜ := by
  induction ss generalizing m cursor with
  | nil => exact ⟨rfl, rfl, Set.eqOn_refl _ _⟩
  | cons s ss ih =>
    rw [stringsTotalSize_cons] at h ⊢
    obtain ⟨h₁, h₂, h₃⟩ := ih (write m (cursor - (s.length + 1)) (s ++ [0]))
      (cursor - (s.length + 1)) (by omega)
    rw [pushStrings_cons]
    generalize pushStrings _ _ ss = r at h₁ h₂ h₃ ⊢
    dsimp only
    refine ⟨by omega, ?_, ?_⟩
    · rw [List.length_cons, h₂, List.length_cons]
    · refine (h₃.mono ?_).trans (eqOn_write.mono ?_)
      · exact Set.compl_subset_compl.mpr (Set.Ico_subset_Ico le_rfl (by omega))
      · refine Set.compl_subset_compl.mpr (Set.Ico_subset_Ico (by omega) ?_)
        rw [List.length_append, List.length_singleton]
        omega

/-- The words end up in front of `cursor`. -/
theorem pushWords_spec (ws : List ℕ) (m : Mem) (cursor : ℕ) (h : 4 * ws.length ≤ cursor) :
    (pushWords m cursor ws).2 + 4 * ws.length = cursor ∧
      Set.EqOn (pushWords m cursor ws).1 m (Set.Ico (pushWords m cursor ws).2 cursor)ᶜ := by
  induction ws with
  | nil => exact ⟨rfl, Set.eqOn_refl _ _⟩
  | cons w ws ih =>
    rw [List.length_cons] at h ⊢
    obtain ⟨h₁, h₂⟩ := ih (by omega)
    rw [pushWords_cons]
    generalize pushWords m cursor ws = r at h₁ h₂ ⊢
    dsimp only
    refine ⟨by omega, (eqOn_storeWord.mono ?_).trans (h₂.mono ?_)⟩
    · exact Set.compl_subset_compl.mpr (Set.Ico_subset_Ico le_rfl (by omega))
    · exact Set.compl_subset_compl.mpr (Set.Ico_subset_Ico (by omega) le_rfl)

/-! ### What can be read back -/

/-- The copies are the strings, each inside the range written. -/
theorem pushStrings_stringAt (ss : List CString) (hss : ∀ s ∈ ss, (0 : UInt8) ∉ s) (m : Mem)
    (cursor : ℕ) (h : stringsTotalSize ss ≤ cursor) :
    List.Forall₂ (fun a s => (pushStrings m cursor ss).2.1 ≤ a ∧ a < cursor ∧
        StringAt (pushStrings m cursor ss).1 a s) (pushStrings m cursor ss).2.2 ss := by
  induction ss generalizing m cursor with
  | nil => exact .nil
  | cons s ss ih =>
    rw [stringsTotalSize_cons] at h
    have htail := ih (fun s hs => hss s (List.mem_cons_of_mem _ hs))
      (write m (cursor - (s.length + 1)) (s ++ [0])) (cursor - (s.length + 1)) (by omega)
    obtain ⟨hcursor, -, hframe⟩ := pushStrings_spec ss
      (write m (cursor - (s.length + 1)) (s ++ [0])) (cursor - (s.length + 1)) (by omega)
    rw [pushStrings_cons]
    generalize pushStrings _ _ ss = r at htail hcursor hframe ⊢
    dsimp only
    refine .cons ⟨by omega, by omega, ?_⟩ (htail.imp fun a s h => ⟨h.1, by omega, h.2.2⟩)
    -- the strings behind it are copied below it
    exact (stringAt_write (hss s List.mem_cons_self)).congr fun b hb _ =>
      eq_of_le_of_eqOn hframe hb

/-- The words are in memory where the cursor stops. -/
theorem pushWords_wordsAt (ws : List ℕ) (hws : ∀ w ∈ ws, w < 0x100000000) (m : Mem) (cursor : ℕ)
    (h : 4 * ws.length ≤ cursor) :
    WordsAt (pushWords m cursor ws).1 (pushWords m cursor ws).2 ws := by
  induction ws with
  | nil => trivial
  | cons w ws ih =>
    rw [List.length_cons] at h
    have htail := ih (fun w hw => hws w (List.mem_cons_of_mem _ hw)) (by omega)
    have hcursor := (pushWords_spec ws m cursor (by omega)).1
    rw [pushWords_cons]
    generalize pushWords m cursor ws = r at htail hcursor ⊢
    dsimp only
    refine ⟨loadWord_storeWord_self.trans (Nat.mod_eq_of_lt (hws w List.mem_cons_self)), ?_⟩
    rw [Nat.sub_add_cancel (by omega)]
    exact htail.congr fun b hb _ => eq_of_le_of_eqOn eqOn_storeWord (by omega)

/-- A range that was written behind another one, and lies below it. -/
private theorem eqOn_trans_below {m₁ m₂ m₃ : Mem} {a b c : ℕ} (h₂ : Set.EqOn m₃ m₂ (Set.Ico a b)ᶜ)
    (h₁ : Set.EqOn m₂ m₁ (Set.Ico b c)ᶜ) (hab : a ≤ b) (hbc : b ≤ c) :
    Set.EqOn m₃ m₁ (Set.Ico a c)ᶜ :=
  (h₂.mono (Set.compl_subset_compl.mpr (Set.Ico_subset_Ico le_rfl hbc))).trans
    (h₁.mono (Set.compl_subset_compl.mpr (Set.Ico_subset_Ico hab le_rfl)))

/-- The two passes over the strings. -/
private theorem pushStrings_both {m : Mem} {stackTop : ℕ} {argv envp : List CString}
    (h : stringsTotalSize argv + stringsTotalSize envp ≤ stackTop) {r₁ r₂ : Mem × ℕ × List ℕ}
    (h₁ : pushStrings m stackTop argv = r₁) (h₂ : pushStrings r₁.1 r₁.2.1 envp = r₂) :
    r₂.2.1 + stringsTotalSize argv + stringsTotalSize envp = stackTop ∧
      r₁.2.2.length = argv.length ∧ r₂.2.2.length = envp.length ∧
      Set.EqOn r₂.1 m (Set.Ico r₂.2.1 stackTop)ᶜ ∧
      ((∀ s ∈ argv, (0 : UInt8) ∉ s) → (∀ s ∈ envp, (0 : UInt8) ∉ s) →
        List.Forall₂ (fun a s => (r₂.2.1 ≤ a ∧ a < stackTop) ∧ StringAt r₂.1 a s) r₁.2.2 argv ∧
        List.Forall₂ (fun a s => (r₂.2.1 ≤ a ∧ a < stackTop) ∧ StringAt r₂.1 a s) r₂.2.2 envp) := by
  obtain ⟨hc₁, hl₁, he₁⟩ := pushStrings_spec argv m stackTop (by omega)
  have s₁ := fun hs => pushStrings_stringAt argv hs m stackTop (by omega)
  rw [h₁] at hc₁ hl₁ he₁ s₁
  obtain ⟨hc₂, hl₂, he₂⟩ := pushStrings_spec envp r₁.1 r₁.2.1 (by omega)
  have s₂ := fun hs => pushStrings_stringAt envp hs r₁.1 r₁.2.1 (by omega)
  rw [h₂] at hc₂ hl₂ he₂ s₂
  refine ⟨by omega, hl₁, hl₂, eqOn_trans_below he₂ he₁ (by omega) (by omega),
    fun hargv henvp => ⟨?_, ?_⟩⟩
  · -- the second pass writes below the copies of the first
    exact (s₁ hargv).imp fun a s h => ⟨⟨by omega, h.2.1⟩,
      h.2.2.congr fun b hb _ => eq_of_le_of_eqOn he₂ (h.1.trans hb)⟩
  · exact (s₂ henvp).imp fun a s h => ⟨⟨h.1, by omega⟩, h.2.2⟩

/-- The two pointer arrays, and `argc` in front of them. -/
private theorem pushWords_both {m : Mem} {cursor argc : ℕ} {as es : List ℕ}
    (h : 4 * (as.length + es.length + 3) ≤ cursor) {r₁ r₂ : Mem × ℕ}
    (h₁ : pushWords m cursor (es ++ [0]) = r₁) (h₂ : pushWords r₁.1 r₁.2 (as ++ [0]) = r₂) :
    ∃ sp, r₂.2 - 4 = sp ∧ sp + 4 * (as.length + es.length + 3) = cursor ∧
      Set.EqOn (storeWord r₂.1 sp argc) m (Set.Ico sp cursor)ᶜ ∧
      loadWord (storeWord r₂.1 sp argc) sp = u32 argc ∧
      ((∀ a ∈ as, a < 0x100000000) → (∀ a ∈ es, a < 0x100000000) →
        WordsAt (storeWord r₂.1 sp argc) (sp + 4) (as ++ [0]) ∧
        WordsAt (storeWord r₂.1 sp argc) (sp + 4 + 4 * (as.length + 1)) (es ++ [0])) := by
  have hlen : ∀ ws : List ℕ, (ws ++ [0]).length = ws.length + 1 := fun ws => List.length_append
  have hzero : ∀ ws : List ℕ, (∀ a ∈ ws, a < 0x100000000) → ∀ a ∈ ws ++ [0], a < 0x100000000 := by
    intro ws hws a hmem
    rcases List.mem_append.mp hmem with hmem | hmem
    · exact hws a hmem
    · rw [List.mem_singleton.mp hmem]
      decide
  have hes := hlen es
  have has := hlen as
  -- `envp` first, then `argv` below it, then the count below both
  obtain ⟨hc₁, he₁⟩ := pushWords_spec (es ++ [0]) m cursor (by omega)
  have w₁ := fun hw => pushWords_wordsAt (es ++ [0]) hw m cursor (by omega)
  rw [h₁] at hc₁ he₁ w₁
  obtain ⟨hc₂, he₂⟩ := pushWords_spec (as ++ [0]) r₁.1 r₁.2 (by omega)
  have w₂ := fun hw => pushWords_wordsAt (as ++ [0]) hw r₁.1 r₁.2 (by omega)
  rw [h₂] at hc₂ he₂ w₂
  obtain ⟨sp, hsp⟩ : ∃ sp, r₂.2 = sp + 4 := ⟨r₂.2 - 4, by omega⟩
  rw [hsp] at he₂ w₂ hc₂
  have he₃ : Set.EqOn (storeWord r₂.1 sp argc) r₁.1 (Set.Ico sp r₁.2)ᶜ :=
    eqOn_trans_below eqOn_storeWord he₂ (Nat.le_add_right _ _) (by omega)
  -- the stores below an array leave it alone
  refine ⟨sp, by omega, by omega, eqOn_trans_below he₃ he₁ (by omega) (by omega),
    loadWord_storeWord_self, fun hargv henvp => ⟨?_, ?_⟩⟩
  · exact (w₂ (hzero as hargv)).congr fun b hb _ => eq_of_le_of_eqOn eqOn_storeWord hb
  · rw [show sp + 4 + 4 * (as.length + 1) = r₁.2 by omega]
    exact (w₁ (hzero es henvp)).congr fun b hb _ => eq_of_le_of_eqOn he₃ hb

/-- What `elf_build_user_stack` leaves when it has room above `stackBase`: the stack pointer is as
many words below the aligned end of the strings as there are, nothing outside the data changes,
and the data can be read back. -/
theorem elfBuildUserStack_spec {m : Mem} {stackBase stackTop : ℕ} {argv envp : List CString}
    (hfit : stringsTotalSize argv + stringsTotalSize envp + (argv.length + 1) * 4 +
      (envp.length + 1) * 4 + 4 ≤ stackTop - stackBase)
    (hlow : stackBase + 4 * (argv.length + envp.length + 3) ≤
      (stackTop - stringsTotalSize argv - stringsTotalSize envp) / 4 * 4) :
    ∃ m' sp, elfBuildUserStack m stackBase stackTop argv envp = some (m', sp) ∧
      sp + 4 * (argv.length + envp.length + 3) =
        (stackTop - stringsTotalSize argv - stringsTotalSize envp) / 4 * 4 ∧
      Set.EqOn m' m (Set.Ico sp stackTop)ᶜ ∧
      ((∀ s ∈ argv, (0 : UInt8) ∉ s) → (∀ s ∈ envp, (0 : UInt8) ∉ s) →
        stackTop < 0x100000000 → loadWord m' sp = argv.length ∧ StringArrayAt m' (sp + 4) argv ∧
          StringArrayAt m' (sp + 4 + 4 * (argv.length + 1)) envp) := by
  rw [elfBuildUserStack, if_neg (not_lt.mpr ((u32_le _).trans hfit))]
  generalize h₁ : pushStrings m stackTop argv = r₁
  obtain ⟨m₁, c₁, argvCopied⟩ := r₁
  dsimp only
  generalize h₂ : pushStrings m₁ c₁ envp = r₂
  obtain ⟨hc, hargc, henvc, hstrings, hcopies⟩ := pushStrings_both (by omega) h₁ h₂
  obtain ⟨m₂, c₂, envpCopied⟩ := r₂
  dsimp only at hc hargc henvc hstrings hcopies ⊢
  rw [show stackTop - stringsTotalSize argv - stringsTotalSize envp = c₂ by omega] at hlow ⊢
  -- the padding behind the strings is left as it is
  have hpad : c₂ / 4 * 4 ≤ c₂ := Nat.div_mul_le_self c₂ 4
  generalize c₂ / 4 * 4 = c at hlow hpad ⊢
  generalize h₃ : pushWords m₂ c (envpCopied ++ [0]) = r₃
  obtain ⟨m₃, c₃⟩ := r₃
  dsimp only
  generalize h₄ : pushWords m₃ c₃ (argvCopied ++ [0]) = r₄
  obtain ⟨sp, hsp, hc₄, hwords, hload, hread⟩ := pushWords_both (by omega) h₃ h₄
  obtain ⟨m₄, c₄⟩ := r₄
  dsimp only at hsp hwords hload hread ⊢
  rw [hsp]
  rw [hargc] at hread
  rw [hargc, henvc] at hc₄
  have hframe := eqOn_trans_below hwords (hstrings.mono (Set.compl_subset_compl.mpr
    (Set.Ico_subset_Ico hpad le_rfl))) (by omega) (by omega)
  refine ⟨_, sp, rfl, hc₄, hframe, fun hargv henvp htop => ?_⟩
  obtain ⟨hargvAt, henvpAt⟩ := hcopies hargv henvp
  -- the strings are above the words
  have hstr : ∀ {as ss}, List.Forall₂ (fun a s => (c₂ ≤ a ∧ a < stackTop) ∧ StringAt m₂ a s) as ss →
      (∀ a ∈ as, a < 0x100000000) ∧
        List.Forall₂ (fun a s => a ≠ 0 ∧ StringAt (storeWord m₄ sp argv.length) a s) as ss :=
    fun h => (List.forall₂_and_left _ _).mp <| h.imp fun a s hs =>
      ⟨by omega, by omega, hs.2.congr fun b hb _ => eq_of_le_of_eqOn hwords (by omega)⟩
  obtain ⟨hargvLt, hargvAt⟩ := hstr hargvAt
  obtain ⟨henvpLt, henvpAt⟩ := hstr henvpAt
  obtain ⟨hargvWords, henvpWords⟩ := hread hargvLt henvpLt
  refine ⟨hload.trans (u32_of_lt (by omega)), ?_, ?_⟩
  · exact hargvWords.stringArrayAt hargvAt
  · exact henvpWords.stringArrayAt henvpAt

/-- **The writes stay inside the stack.** When the region has room for the data and three more
bytes, the stack is built, and nothing outside the region changes. -/
theorem elfBuildUserStack_eqOn {m : Mem} {stackBase stackTop : ℕ} {argv envp : List CString}
    (hfit : stringsTotalSize argv + stringsTotalSize envp + (argv.length + 1) * 4 +
      (envp.length + 1) * 4 + 4 + 3 ≤ stackTop - stackBase) :
    ∃ m' sp, elfBuildUserStack m stackBase stackTop argv envp = some (m', sp) ∧
      Set.EqOn m' m (Set.Ico stackBase stackTop)ᶜ := by
  have hroom : stringsTotalSize argv + stringsTotalSize envp + (argv.length + 1) * 4 +
      (envp.length + 1) * 4 + 4 ≤ stackTop - stackBase := by omega
  obtain ⟨m', sp, hstack, hsp, heq, -⟩ := elfBuildUserStack_spec (m := m) hroom (by omega)
  refine ⟨m', sp, hstack, heq.mono ?_⟩
  exact Set.compl_subset_compl.mpr (Set.Ico_subset_Ico (by omega) le_rfl)

end ChalesOs
