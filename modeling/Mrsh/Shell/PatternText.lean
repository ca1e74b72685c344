import Mrsh.Data.Escapes
import Mrsh.Shell.QuotedText

namespace Mrsh

open Mrsh.Data

/-! # What a pattern says

`word_to_pattern` writes an expanded word down for `fnmatch`, which takes a character after
a backslash literally.
-/

/-- The characters of a pattern as `fnmatch` takes them. -/
def readPattern (pattern : Str) : Option (List (Reading Char)) := readEscaped '\\' isPathnameMetachar pattern

/-- What the characters of an expanded word stand for in a pattern. -/
def patternMeaning (word : Word) : List (Reading Char) :=
  (quotedText false word).map (reading isPathnameMetachar)

theorem escaped_string (quoted : Bool) (str : Str) :
    (str.map (·, quoted)).flatMap (escapedSymbol '\\' isPathnameMetachar) =
      str.flatMap fun c => if isPathnameMetachar c && quoted then ['\\', c] else [c] := by
  rw [List.flatMap_map]
  rfl

mutual

theorem wordToPatternIn_expanded (quoted : Bool) : (word : Word) → isExpanded word = true →
    wordToPatternIn quoted word = some ((quotedText quoted word).flatMap (escapedSymbol '\\' isPathnameMetachar))
  | .string str singleQuoted _ _, _ => by rw [wordToPatternIn, quotedText, escaped_string]
  | .list children doubleQuoted _ _, expanded => by
      rw [wordToPatternIn, quotedText]
      exact wordsToPattern_expanded _ children expanded
  | .parameter _, expanded => by simp [isExpanded] at expanded
  | .command _ _ _, expanded => by simp [isExpanded] at expanded
  | .arithmetic _, expanded => by simp [isExpanded] at expanded
  | .null, expanded => by simp [isExpanded] at expanded

theorem wordsToPattern_expanded (quoted : Bool) : (words : List Word) → areExpanded words = true →
    wordsToPattern quoted words =
      some ((quotedTextOfChildren quoted words).flatMap (escapedSymbol '\\' isPathnameMetachar))
  | [], _ => rfl
  | word :: words, expanded => by
      simp only [areExpanded, Bool.and_eq_true] at expanded
      simp only [wordsToPattern, wordToPatternIn_expanded quoted word expanded.1,
        wordsToPattern_expanded quoted words expanded.2, quotedTextOfChildren, List.flatMap_append,
        Option.bind_eq_bind, Option.bind_some]

end

mutual

theorem isExpanded_of_pattern (quoted : Bool) : (word : Word) → (pattern : Str) →
    wordToPatternIn quoted word = some pattern → isExpanded word = true
  | .string _ _ _ _, _, _ => rfl
  | .list children doubleQuoted _ _, pattern, written => by
      rw [wordToPatternIn] at written
      exact areExpanded_of_pattern _ children pattern written
  | .parameter _, _, written => by cases written
  | .command _ _ _, _, written => by cases written
  | .arithmetic _, _, written => by cases written
  | .null, _, written => by cases written

theorem areExpanded_of_pattern (quoted : Bool) : (words : List Word) → (pattern : Str) →
    wordsToPattern quoted words = some pattern → areExpanded words = true
  | [], _, _ => rfl
  | word :: words, pattern, written => by
      rw [wordsToPattern] at written
      obtain ⟨first, firstWritten, written⟩ := Option.bind_eq_some_iff.mp written
      obtain ⟨rest, restWritten, _⟩ := Option.bind_eq_some_iff.mp written
      rw [areExpanded, isExpanded_of_pattern quoted word first firstWritten,
        areExpanded_of_pattern quoted words rest restWritten]
      rfl

end

theorem wordToPattern_text {word : Word} {pattern : Str} (returned : wordToPattern word = some (some pattern)) :
    pattern = (quotedText false word).flatMap (escapedSymbol '\\' isPathnameMetachar) := by
  obtain ⟨needs, _, written⟩ := Option.bind_eq_some_iff.mp returned
  cases needs with
  | false => simp at written
  | true =>
      obtain ⟨found, written, same⟩ := Option.bind_eq_some_iff.mp written
      have expanded := isExpanded_of_pattern false word found written
      rw [wordToPatternIn_expanded false word expanded] at written
      rw [← Option.some.inj (Option.some.inj same), Option.some.inj written]

/-- The pattern says what the word stands for exactly if no character of the word is a backslash. -/
theorem wordToPattern_reads_iff {word : Word} {pattern : Str} (returned : wordToPattern word = some (some pattern)) :
    readPattern pattern = some (patternMeaning word) ↔ ∀ c ∈ quotedText false word, c.1 ≠ '\\' := by
  rw [wordToPattern_text returned]
  exact readEscaped_iff rfl (quotedText false word)

/-- The word `'a*'*`. -/
def quotedStar : Word :=
  .list [.string ['a', '*'] true false .invalid, .string ['*'] false false .invalid] false .invalid .invalid

theorem wordToPattern_reads_star : readPattern ['a', '\\', '*', '*'] = some (patternMeaning quotedStar) := by
  have returned : wordToPattern quotedStar = some (some ['a', '\\', '*', '*']) := by decide
  exact (wordToPattern_reads_iff returned).mpr (by decide)

/-- The word `'\'*`. -/
def quotedBackslash : Word :=
  .list [.string ['\\'] true false .invalid, .string ['*'] false false .invalid] false .invalid .invalid

/-- The backslash makes the operator behind it literal. -/
theorem wordToPattern_hides_star :
    wordToPattern quotedBackslash = some (some ['\\', '*']) ∧ readPattern ['\\', '*'] = some [.literal '*'] ∧
      patternMeaning quotedBackslash = [.literal '\\', .operator '*'] := by
  decide

end Mrsh
