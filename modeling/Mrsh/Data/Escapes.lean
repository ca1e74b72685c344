import Mathlib.Data.List.Basic

namespace Mrsh.Data

/-! # Escaped text

A text marks each of its symbols as quoted or not. It is written down with an escape symbol
in front of the quoted symbols that would be operators otherwise, and a reader takes the
symbol after an escape symbol literally. The escape symbol itself is written down as it is.
So the reader finds the marked text again exactly if no escape symbol is in it.
-/

/-- How a reader takes a symbol. -/
inductive Reading (α : Type) where
  | literal (symbol : α)
  | operator (symbol : α)
deriving Repr, DecidableEq

variable {α : Type} [DecidableEq α] (escape : α) (isOperator : α → Bool)

def escapedSymbol (symbol : α × Bool) : List α :=
  if isOperator symbol.1 && symbol.2 then [escape, symbol.1] else [symbol.1]

/-- What a marked symbol stands for. -/
def reading (symbol : α × Bool) : Reading α :=
  if isOperator symbol.1 && !symbol.2 then .operator symbol.1 else .literal symbol.1

/-- Reads a written text. An escape symbol at its end has no symbol to escape. -/
def readEscaped : List α → Option (List (Reading α))
  | [] => some []
  | symbol :: rest =>
      if symbol = escape then
        match rest with
        | [] => none
        | next :: rest => (readEscaped rest).map (.literal next :: ·)
      else (readEscaped rest).map (reading isOperator (symbol, false) :: ·)

/-- The symbols that the writer puts an escape symbol in front of. -/
def NeedsEscape (isOperator : α → Bool) (symbol : α × Bool) : Prop := isOperator symbol.1 = true ∧ symbol.2 = true

variable {escape : α} {isOperator : α → Bool} {symbol : α × Bool} {text : List (α × Bool)} {written : List α}

omit [DecidableEq α] in
theorem escaped_needs (needs : NeedsEscape isOperator symbol) :
    escapedSymbol escape isOperator symbol = [escape, symbol.1] := by
  simp [escapedSymbol, needs.1, needs.2]

omit [DecidableEq α] in
theorem escaped_plain (plain : ¬ NeedsEscape isOperator symbol) :
    escapedSymbol escape isOperator symbol = [symbol.1] := by
  simp_all [escapedSymbol, NeedsEscape]

theorem readEscaped_escape (next : α) : readEscaped escape isOperator (escape :: next :: written) =
    (readEscaped escape isOperator written).map (.literal next :: ·) := by
  simp [readEscaped]

theorem readEscaped_other {next : α} (other : next ≠ escape) : readEscaped escape isOperator (next :: written) =
    (readEscaped escape isOperator written).map (reading isOperator (next, false) :: ·) := by
  cases written with
  | nil => simp [readEscaped, other]
  | cons first rest => simp [readEscaped, other]

theorem readEscaped_escaped (other : symbol.1 ≠ escape) :
    readEscaped escape isOperator (escapedSymbol escape isOperator symbol ++ written) =
      (readEscaped escape isOperator written).map (reading isOperator symbol :: ·) := by
  by_cases needs : NeedsEscape isOperator symbol
  · have literal : reading isOperator symbol = .literal symbol.1 := by simp [reading, needs.2]
    rw [escaped_needs needs, literal]
    exact readEscaped_escape symbol.1
  · have same : reading isOperator symbol = reading isOperator (symbol.1, false) := by
      cases quoted : symbol.2 with
      | false => simp [reading, quoted]
      | true => simp_all [reading, NeedsEscape]
    rw [escaped_plain needs, same]
    exact readEscaped_other other

theorem readEscaped_escape_needs (needs : NeedsEscape isOperator symbol) :
    readEscaped escape isOperator (escape :: (escapedSymbol escape isOperator symbol ++ written)) =
      (readEscaped escape isOperator (symbol.1 :: written)).map (.literal escape :: ·) := by
  rw [escaped_needs needs]
  exact readEscaped_escape escape

theorem readEscaped_escape_plain (plain : ¬ NeedsEscape isOperator symbol) :
    readEscaped escape isOperator (escape :: (escapedSymbol escape isOperator symbol ++ written)) =
      (readEscaped escape isOperator written).map (.literal symbol.1 :: ·) := by
  rw [escaped_plain plain]
  exact readEscaped_escape symbol.1

omit [DecidableEq α] in
theorem escaped_escape (ordinary : isOperator escape = false) (same : symbol.1 = escape) :
    escapedSymbol escape isOperator symbol = [escape] := by
  simp [escapedSymbol, same, ordinary]

theorem readEscaped_length (ordinary : isOperator escape = false) {found : List (Reading α)}
    (read : readEscaped escape isOperator (text.flatMap (escapedSymbol escape isOperator)) = some found) :
    found.length ≤ text.length := by
  induction length : text.length using Nat.strongRecOn generalizing text found with
  | ind size ih =>
      subst length
      match text with
      | [] =>
          cases read
          exact Nat.le_refl _
      | symbol :: rest =>
          rw [List.flatMap_cons] at read
          by_cases isEscape : symbol.1 = escape
          · rw [escaped_escape ordinary isEscape, List.singleton_append] at read
            match rest with
            | [] => simp [readEscaped] at read
            | next :: rest =>
                rw [List.flatMap_cons] at read
                by_cases needs : NeedsEscape isOperator next
                · -- What is left is the text in which the next symbol is not quoted.
                  rw [readEscaped_escape_needs needs] at read
                  obtain ⟨others, tail, rfl⟩ := Option.map_eq_some_iff.mp read
                  have unquoted : ((next.1, false) :: rest).flatMap (escapedSymbol escape isOperator) =
                      next.1 :: rest.flatMap (escapedSymbol escape isOperator) := by simp [escapedSymbol]
                  rw [← unquoted] at tail
                  have shorter := ih ((next.1, false) :: rest).length (by simp) tail rfl
                  simp only [List.length_cons] at shorter ⊢
                  omega
                · rw [readEscaped_escape_plain needs] at read
                  obtain ⟨others, tail, rfl⟩ := Option.map_eq_some_iff.mp read
                  have shorter := ih rest.length (by simp only [List.length_cons]; omega) tail rfl
                  simp only [List.length_cons]
                  omega
          · rw [readEscaped_escaped isEscape] at read
            obtain ⟨others, tail, rfl⟩ := Option.map_eq_some_iff.mp read
            have shorter := ih rest.length (by simp) tail rfl
            simp only [List.length_cons]
            omega

/-- An escape symbol in front of the text is not read as one that the text has. -/
theorem readEscaped_escape_ne (ordinary : isOperator escape = false) (quoted : Bool) (text : List (α × Bool)) :
    readEscaped escape isOperator (escape :: text.flatMap (escapedSymbol escape isOperator)) ≠
      some (((escape, quoted) :: text).map (reading isOperator)) := by
  intro read
  match text with
  | [] => simp [readEscaped] at read
  | next :: rest =>
      rw [List.flatMap_cons] at read
      by_cases needs : NeedsEscape isOperator next
      · -- The next symbol is read as an operator.
        have other : next.1 ≠ escape := by
          intro same
          have isEscape := needs.1
          rw [same, ordinary] at isEscape
          cases isEscape
        rw [readEscaped_escape_needs needs, readEscaped_other other, Option.map_map] at read
        obtain ⟨found, _, same⟩ := Option.map_eq_some_iff.mp read
        simp [reading, needs.1, needs.2] at same
      · -- One symbol is missing.
        rw [readEscaped_escape_plain needs] at read
        obtain ⟨found, tail, same⟩ := Option.map_eq_some_iff.mp read
        have shorter := readEscaped_length ordinary tail
        have longer := congrArg List.length same
        simp only [List.length_map, List.length_cons] at longer
        omega

/-- The reader finds the marked text exactly if the escape symbol is not in it. -/
theorem readEscaped_iff (ordinary : isOperator escape = false) (text : List (α × Bool)) :
    readEscaped escape isOperator (text.flatMap (escapedSymbol escape isOperator)) =
        some (text.map (reading isOperator)) ↔ ∀ symbol ∈ text, symbol.1 ≠ escape := by
  induction text with
  | nil => simp [readEscaped]
  | cons symbol rest ih =>
      rw [List.flatMap_cons, List.forall_mem_cons, ← ih]
      by_cases isEscape : symbol.1 = escape
      · rw [escaped_escape ordinary isEscape]
        have differs := readEscaped_escape_ne ordinary symbol.2 rest
        rw [← isEscape] at differs ⊢
        exact ⟨fun read => absurd read differs, fun others => absurd rfl others.1⟩
      · rw [readEscaped_escaped isEscape, List.map_cons]
        constructor
        · intro read
          obtain ⟨found, tail, same⟩ := Option.map_eq_some_iff.mp read
          rw [(List.cons.inj same).2] at tail
          exact ⟨isEscape, tail⟩
        · rintro ⟨_, read⟩
          rw [read]
          rfl

end Mrsh.Data
