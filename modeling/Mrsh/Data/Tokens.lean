import Mathlib.Data.List.TakeWhile

namespace Mrsh.Data

/-! # Tokens

The parts of a list between its separators, of which none is empty.
-/

variable {α : Type} [DecidableEq α] {sep : α}

def tokens (sep : α) (list : List α) : List (List α) := (list.splitOn sep).filter (!·.isEmpty)

@[simp] theorem tokens_nil (sep : α) : tokens sep [] = [] := by simp [tokens]

theorem tokens_append (sep : α) (before after : List α) :
    tokens sep (before ++ sep :: after) = tokens sep before ++ tokens sep after := by
  rw [tokens, List.splitOn_append_cons_self, List.filter_append, ← tokens, ← tokens]

theorem tokens_doubled (before after : List α) :
    tokens sep (before ++ sep :: sep :: after) = tokens sep (before ++ sep :: after) := by
  have single := tokens_append sep [] after
  rw [List.nil_append, tokens_nil, List.nil_append] at single
  rw [tokens_append, tokens_append, single]

theorem tokens_trailing (before : List α) : tokens sep (before ++ [sep]) = tokens sep before := by
  rw [tokens_append, tokens_nil, List.append_nil]

theorem tokens_word {word rest : List α} (plain : sep ∉ word) (nonempty : word ≠ [])
    (ends : ∀ c, rest.head? = some c → c = sep) : tokens sep (word ++ rest) = word :: tokens sep rest := by
  have alone : tokens sep word = [word] := by
    rw [tokens, List.splitOn_eq_singleton plain]
    simpa using nonempty
  cases rest with
  | nil => rw [List.append_nil, alone, tokens_nil]
  | cons c rest =>
      obtain rfl := ends c rfl
      have skipped := tokens_append c [] rest
      rw [List.nil_append, tokens_nil, List.nil_append] at skipped
      rw [tokens_append, alone, skipped]
      rfl

theorem exists_lastWord {list : List α} (nonempty : list ≠ []) (open_ : list.getLast? ≠ some sep) :
    ∃ before word, list = before ++ word ∧ sep ∉ word ∧ word ≠ [] ∧
      (before = [] ∨ ∃ begun, before = begun ++ [sep]) := by
  induction list with
  | nil => exact absurd rfl nonempty
  | cons c list ih =>
      cases list with
      | nil =>
          refine ⟨[], [c], rfl, ?_, by simp, .inl rfl⟩
          intro mem
          exact open_ (by simp [List.mem_singleton.mp mem])
      | cons d list =>
          obtain ⟨before, word, split, plain, found, start⟩ := ih (by simp) (by simpa using open_)
          rcases start with rfl | ⟨begun, rfl⟩
          · rw [List.nil_append] at split
            by_cases separates : c = sep
            · exact ⟨[c], word, by rw [split]; rfl, plain, found, .inr ⟨[], by rw [separates]; rfl⟩⟩
            · exact ⟨[], c :: word, by rw [split]; rfl, by simp [plain, Ne.symm separates], by simp, .inl rfl⟩
          · exact ⟨c :: (begun ++ [sep]), word, by rw [split]; rfl, plain, found, .inr ⟨c :: begun, rfl⟩⟩

theorem exists_firstWord {list : List α} (nonempty : list ≠ []) (plain : list.head? ≠ some sep) :
    ∃ word rest, list = word ++ rest ∧ sep ∉ word ∧ word ≠ [] ∧ ∀ c, rest.head? = some c → c = sep := by
  refine ⟨list.takeWhile (· != sep), list.dropWhile (· != sep), List.takeWhile_append_dropWhile.symm, ?_, ?_, ?_⟩
  · intro mem
    simpa using List.mem_takeWhile_imp mem
  · cases list with
    | nil => exact absurd rfl nonempty
    | cons c list =>
        have other : c ≠ sep := by simpa using plain
        simp [other]
  · intro c found
    have stops := List.head?_dropWhile_not (· != sep) list
    rw [found] at stops
    simpa using stops

/-- A list that does not end with a separator, and one that does not start with
one, share a token, so no separator between other words gives the same tokens. -/
theorem tokens_joined_ne {first second : List α} (nonempty : first ≠ []) (open_ : first.getLast? ≠ some sep)
    (follows : second ≠ []) (plain : second.head? ≠ some sep) (other : List α) :
    tokens sep (other ++ sep :: second) ≠ tokens sep (first ++ second) := by
  obtain ⟨before, word, rfl, wordPlain, wordFound, start⟩ := exists_lastWord nonempty open_
  obtain ⟨head, rest, rfl, headPlain, headFound, ends⟩ := exists_firstWord follows plain
  have joined : tokens sep (before ++ word ++ (head ++ rest)) = tokens sep before ++ (word ++ head) ::
    tokens sep rest := by
    have one : tokens sep (word ++ head ++ rest) = (word ++ head) :: tokens sep rest :=
      tokens_word (by simp [wordPlain, headPlain]) (by simp [wordFound]) ends
    rw [← one]
    rcases start with rfl | ⟨begun, rfl⟩
    · simp
    · rw [tokens_trailing, ← tokens_append]
      simp
  rw [joined, tokens_append, tokens_word headPlain headFound ends]
  intro same
  obtain ⟨-, same⟩ := List.append_inj' same (by simp)
  have grown : head = word ++ head := (List.cons.inj same).1
  exact wordFound (List.self_eq_append_left.mp grown)

theorem splitOn_length_le (list : List α) : (list.splitOn sep).length ≤ list.length + 1 := by
  induction list with
  | nil => simp
  | cons c list ih =>
      rw [List.splitOn_cons_eq_if_modifyHead]
      split
      · simpa using ih
      · simp only [List.length_modifyHead, List.length_cons]
        omega

end Mrsh.Data
