import ChalesOs.Memory.Words

/-!
# Strings and arrays of strings in memory

What a program reads at an address: a string up to its `NUL` (`StringAt`), a sequence of words
(`WordsAt`), and an array of pointers to strings up to its `NULL` (`StringArrayAt`), the form of
`argv` and `envp`. A memory and an address determine what is read there (`StringAt.unique`,
`StringArrayAt.unique`), and only the bytes that are read matter (`congr`).
-/

namespace ChalesOs

open ByteMemory

/-- Reading up to the first `NUL` from the address `a` on gives the string. -/
def StringAt (m : Mem) : (a : ℕ) → CString → Prop
  | a, [] => m a = 0
  | a, c :: s => m a = c ∧ c ≠ 0 ∧ StringAt m (a + 1) s

/-- The string at an address, unless its `NUL` is more than `fuel` bytes away. -/
def stringFrom (m : Mem) : (fuel a : ℕ) → Option CString
  | 0, _ => none
  | fuel + 1, a => if m a = 0 then some [] else (stringFrom m fuel (a + 1)).map (m a :: ·)

/-- The words are in memory from the address `a` on. -/
def WordsAt (m : Mem) : (a : ℕ) → List ℕ → Prop
  | _, [] => True
  | a, w :: ws => loadWord m a = w ∧ WordsAt m (a + 4) ws

/-- Reading pointers up to the first `NULL` from the address `a` on, and the strings they point
to, gives the strings. -/
def StringArrayAt (m : Mem) : (a : ℕ) → List CString → Prop
  | a, [] => loadWord m a = 0
  | a, s :: ss => loadWord m a ≠ 0 ∧ StringAt m (loadWord m a) s ∧ StringArrayAt m (a + 4) ss

/-- The memory with the words stored one behind the other, from the address `a` on. -/
def storeWords (m : Mem) : (a : ℕ) → List ℕ → Mem
  | _, [] => m
  | a, w :: ws => storeWords (storeWord m a w) (a + 4) ws

instance StringAt.decidable (m : Mem) : ∀ a s, Decidable (StringAt m a s)
  | a, [] => inferInstanceAs (Decidable (m a = 0))
  | a, c :: s =>
    have := StringAt.decidable m (a + 1) s
    inferInstanceAs (Decidable (m a = c ∧ c ≠ 0 ∧ StringAt m (a + 1) s))

instance StringArrayAt.decidable (m : Mem) : ∀ a ss, Decidable (StringArrayAt m a ss)
  | a, [] => inferInstanceAs (Decidable (loadWord m a = 0))
  | a, s :: ss =>
    have := StringArrayAt.decidable m (a + 4) ss
    inferInstanceAs (Decidable (loadWord m a ≠ 0 ∧ StringAt m (loadWord m a) s ∧
      StringArrayAt m (a + 4) ss))

variable {m m' : Mem} {a : ℕ} {s s' : CString} {ss ss' : List CString} {ws : List ℕ}

/-! ### Strings -/

/-- Memory and address determine the string. -/
theorem StringAt.unique (h : StringAt m a s) (h' : StringAt m a s') : s = s' := by
  induction s generalizing a s' with
  | nil =>
    cases s' with
    | nil => rfl
    | cons d s' => exact absurd (h'.1.symm.trans h) h'.2.1
  | cons c s ih =>
    cases s' with
    | nil => exact absurd (h.1.symm.trans h') h.2.1
    | cons d s' => rw [← h.1, h'.1, ih h.2.2 h'.2.2]

/-- What is read is the string at the address. -/
theorem stringAt_of_stringFrom {fuel : ℕ} (h : stringFrom m fuel a = some s) : StringAt m a s := by
  induction fuel generalizing a s with
  | zero => simp [stringFrom] at h
  | succ fuel ih =>
    rw [stringFrom] at h
    split_ifs at h with hend
    · obtain rfl := Option.some.inj h
      exact hend
    · obtain ⟨t, ht, rfl⟩ := Option.map_eq_some_iff.mp h
      exact ⟨rfl, hend, ih ht⟩

/-- A string that is short enough is read. -/
theorem StringAt.stringFrom_eq {fuel : ℕ} (h : StringAt m a s) (hfuel : s.length < fuel) :
    stringFrom m fuel a = some s := by
  induction s generalizing a fuel with
  | nil =>
    obtain ⟨fuel, rfl⟩ := Nat.exists_eq_succ_of_ne_zero (Nat.ne_zero_of_lt hfuel)
    exact if_pos h
  | cons c s ih =>
    obtain ⟨fuel, rfl⟩ := Nat.exists_eq_succ_of_ne_zero (Nat.ne_zero_of_lt hfuel)
    obtain ⟨rfl, hc, hs⟩ := h
    rw [stringFrom, if_neg hc, ih hs (Nat.lt_of_succ_lt_succ hfuel), Option.map_some]

/-- What has been read contains no `NUL`. -/
theorem StringAt.zero_notMem (h : StringAt m a s) : (0 : UInt8) ∉ s := by
  induction s generalizing a with
  | nil => exact List.not_mem_nil
  | cons c s ih =>
    intro hmem
    rcases List.mem_cons.mp hmem with hc | hmem
    · exact h.2.1 hc.symm
    · exact ih h.2.2 hmem

/-- A string ends with a `NUL`. -/
theorem StringAt.end_eq_zero (h : StringAt m a s) : m (a + s.length) = 0 := by
  induction s generalizing a with
  | nil => exact h
  | cons c s ih =>
    rw [List.length_cons, Nat.add_comm s.length, ← Nat.add_assoc]
    exact ih h.2.2

/-- Only the bytes of the string and its `NUL` are read. -/
theorem StringAt.congr (h : StringAt m a s) (heq : ∀ b, a ≤ b → b ≤ a + s.length → m' b = m b) :
    StringAt m' a s := by
  induction s generalizing a with
  | nil => exact (heq a le_rfl le_rfl).trans h
  | cons c s ih =>
    rw [List.length_cons] at heq
    refine ⟨(heq a le_rfl (by omega)).trans h.1, h.2.1, ih h.2.2 fun b hab hb => ?_⟩
    exact heq b (by omega) (by omega)

/-- What has been copied with its `NUL` can be read. -/
theorem stringAt_write (hs : (0 : UInt8) ∉ s) : StringAt (write m a (s ++ [0])) a s := by
  -- the string is read to the end of a prefix already read
  suffices h : ∀ pre : CString, StringAt (write m a (pre ++ s ++ [0])) (a + pre.length) s from
    h []
  intro pre
  induction s generalizing pre with
  | nil =>
    rw [StringAt, write, if_pos (Nat.le_add_right _ _), Nat.add_sub_cancel_left]
    simp
  | cons c s ih =>
    refine ⟨?_, fun hc => hs (hc ▸ List.mem_cons_self), ?_⟩
    · rw [write, if_pos (Nat.le_add_right _ _), Nat.add_sub_cancel_left]
      simp
    · have := ih (fun hmem => hs (List.mem_cons_of_mem _ hmem)) (pre ++ [c])
      simpa [Nat.add_assoc] using this

/-! ### Words and arrays -/

/-- Only the words themselves are read. -/
theorem WordsAt.congr (h : WordsAt m a ws)
    (heq : ∀ b, a ≤ b → b < a + 4 * ws.length → m' b = m b) : WordsAt m' a ws := by
  induction ws generalizing a with
  | nil => trivial
  | cons w ws ih =>
    rw [List.length_cons] at heq
    refine ⟨(loadWord_congr fun k hk => heq _ (by omega) (by omega)).trans h.1, ?_⟩
    exact ih h.2 fun b hab hb => heq b (by omega) (by omega)

theorem wordsAt_append {ws' : List ℕ} :
    WordsAt m a (ws ++ ws') ↔ WordsAt m a ws ∧ WordsAt m (a + 4 * ws.length) ws' := by
  induction ws generalizing a with
  | nil => simp [WordsAt]
  | cons w ws ih =>
    rw [List.cons_append, WordsAt, WordsAt, ih, and_assoc, List.length_cons, Nat.mul_succ,
      Nat.add_comm (4 * ws.length), Nat.add_assoc]

/-- Storing words changes their bytes only. -/
theorem eqOn_storeWords : Set.EqOn (storeWords m a ws) m (Set.Ico a (a + 4 * ws.length))ᶜ := by
  induction ws generalizing m a with
  | nil => exact fun _ _ => rfl
  | cons w ws ih =>
    intro b hb
    simp only [Set.mem_compl_iff, Set.mem_Ico, not_and, not_lt, List.length_cons] at hb
    have hrest : b ∈ (Set.Ico (a + 4) (a + 4 + 4 * ws.length))ᶜ := by
      simp only [Set.mem_compl_iff, Set.mem_Ico]
      omega
    have hword : b ∈ (Set.Ico a (a + 4))ᶜ := by
      simp only [Set.mem_compl_iff, Set.mem_Ico]
      omega
    exact (ih hrest).trans (eqOn_storeWord hword)

/-- What has been stored can be read. -/
theorem wordsAt_storeWords (hws : ∀ w ∈ ws, w < 0x100000000) :
    WordsAt (storeWords m a ws) a ws := by
  induction ws generalizing m a with
  | nil => trivial
  | cons w ws ih =>
    obtain ⟨hw, hws⟩ := List.forall_mem_cons.mp hws
    refine ⟨?_, ih hws⟩
    rw [storeWords, loadWord_congr fun k hk => eqOn_storeWords ?_, loadWord_storeWord_self,
      u32_of_lt hw]
    simp only [Set.mem_compl_iff, Set.mem_Ico]
    omega

/-- Pointers to strings, with a `NULL` behind them, are an array of strings. -/
theorem WordsAt.stringArrayAt {as : List ℕ} (h : WordsAt m a (as ++ [0]))
    (hs : List.Forall₂ (fun p s => p ≠ 0 ∧ StringAt m p s) as ss) : StringArrayAt m a ss := by
  induction hs generalizing a with
  | nil => exact h.1
  | cons hp _ ih =>
    obtain ⟨hload, hrest⟩ := h
    rw [StringArrayAt, hload]
    exact ⟨hp.1, hp.2, ih hrest⟩

/-- Memory and address determine the array. -/
theorem StringArrayAt.unique (h : StringArrayAt m a ss) (h' : StringArrayAt m a ss') :
    ss = ss' := by
  induction ss generalizing a ss' with
  | nil =>
    cases ss' with
    | nil => rfl
    | cons s' ss' => exact absurd h h'.1
  | cons s ss ih =>
    cases ss' with
    | nil => exact absurd h' h.1
    | cons s' ss' => rw [h.2.1.unique h'.2.1, ih h.2.2 h'.2.2]

end ChalesOs
