import Mrsh.Shell.FieldSplitting

namespace Mrsh

/-! # The characters of the fields

Field splitting removes the delimiters and nothing else: every piece of the word
adds its text to the end of what the fields hold so far, wherever the splitter
stands.
-/

/-- The text that a piece leaves in the fields. -/
def Piece.text : Piece → QuotedText
  | .space => []
  | .separator => []
  | .plain text => text
  | .doubleQuoted text => text

namespace Splitter

theorem append_flatten (machine : Splitter) (text : QuotedText) :
    (machine.append text).finish.flatten = machine.finish.flatten ++ text := by
  cases current : machine.cur <;> simp [append, finish, current]

theorem endField_flatten (machine : Splitter) : machine.endField.finish.flatten = machine.finish.flatten := by
  cases current : machine.cur <;> simp [endField, finish, current]

theorem step_flatten (machine : Splitter) (piece : Piece) :
    (machine.step piece).finish.flatten = machine.finish.flatten ++ piece.text := by
  cases piece with
  | space =>
      rw [step, Piece.text, List.append_nil]
      split
      · rfl
      · exact endField_flatten machine
  | separator =>
      rw [step, Piece.text, List.append_nil]
      split
      · exact endField_flatten machine
      · rfl
  | plain text => exact append_flatten machine text
  | doubleQuoted text => exact append_flatten machine text

theorem run_flatten (rest : List Piece) (machine : Splitter) :
    (rest.foldl step machine).finish.flatten = machine.finish.flatten ++ rest.flatMap Piece.text := by
  induction rest generalizing machine with
  | nil => simp
  | cons piece rest ih => rw [List.foldl_cons, ih, step_flatten, List.flatMap_cons, List.append_assoc]

end Splitter

mutual

/-- The word without the delimiters in those of its strings that can be split
and are not quoted. -/
def withoutDelimiters (ifs : Str) (quoted : Bool) : Word → Word
  | .string str singleQuoted splitFields range =>
      if quoted || singleQuoted || !splitFields then .string str singleQuoted splitFields range
      else .string (str.filter (· ∉ ifs)) singleQuoted splitFields range
  | .list children doubleQuoted lquotePos rquotePos =>
      .list (withoutDelimitersIn ifs (quoted || doubleQuoted) children) doubleQuoted lquotePos rquotePos
  | word => word

def withoutDelimitersIn (ifs : Str) (quoted : Bool) : List Word → List Word
  | [] => []
  | child :: children => withoutDelimiters ifs quoted child :: withoutDelimitersIn ifs quoted children

end

mutual

theorem withoutDelimiters_quoted (ifs : Str) : (word : Word) → withoutDelimiters ifs true word = word
  | .string _ _ _ _ => rfl
  | .list children _ _ _ => by rw [withoutDelimiters, Bool.true_or, withoutDelimitersIn_quoted ifs children]
  | .parameter _ | .command _ _ _ | .arithmetic _ | .null => rfl

theorem withoutDelimitersIn_quoted (ifs : Str) :
    (children : List Word) → withoutDelimitersIn ifs true children = children
  | [] => rfl
  | child :: children => by
      rw [withoutDelimitersIn, withoutDelimiters_quoted ifs child, withoutDelimitersIn_quoted ifs children]

end

mutual

theorem withoutDelimiters_none (quoted : Bool) : (word : Word) → withoutDelimiters [] quoted word = word
  | .string str _ _ _ => by simp [withoutDelimiters]
  | .list children _ _ _ => by rw [withoutDelimiters, withoutDelimitersIn_none _ children]
  | .parameter _ | .command _ _ _ | .arithmetic _ | .null => rfl

theorem withoutDelimitersIn_none (quoted : Bool) :
    (children : List Word) → withoutDelimitersIn [] quoted children = children
  | [] => rfl
  | child :: children => by
      rw [withoutDelimitersIn, withoutDelimiters_none quoted child, withoutDelimitersIn_none quoted children]

end

theorem charPieces_text (ifs str : Str) :
    (str.map (charPiece ifs)).flatMap Piece.text = (str.filter (· ∉ ifs)).map (·, false) := by
  induction str with
  | nil => rfl
  | cons c str ih =>
      rw [List.map_cons, List.flatMap_cons, ih]
      by_cases delimiter : c ∈ ifs
      · have nothing : (charPiece ifs c).text = [] := by
          rw [charPiece_delimiter delimiter]
          cases isSpace c <;> rfl
        simp [nothing, delimiter]
      · simp [charPiece_other delimiter, Piece.text, delimiter]

mutual

theorem pieces_text (ifs : Str) : (word : Word) →
    (pieces ifs word).flatMap Piece.text = quotedText false (withoutDelimiters ifs false word)
  | .string str singleQuoted splitFields range => by
      rw [pieces, withoutDelimiters, Bool.false_or]
      split
      · exact List.append_nil _
      · rename_i splittable
        have unquoted : singleQuoted = false := by
          cases singleQuoted with
          | true => exact absurd rfl splittable
          | false => rfl
        subst unquoted
        exact charPieces_text ifs str
  | .list children true lquotePos rquotePos => by
      rw [pieces, withoutDelimiters, Bool.false_or, withoutDelimitersIn_quoted]
      exact List.append_nil _
  | .list children false _ _ => by
      rw [pieces, withoutDelimiters, Bool.false_or, piecesOfChildren_text ifs children]
      rfl
  | .parameter _ | .command _ _ _ | .arithmetic _ | .null => rfl

theorem piecesOfChildren_text (ifs : Str) : (children : List Word) →
    (piecesOfChildren ifs children).flatMap Piece.text =
      quotedTextOfChildren false (withoutDelimitersIn ifs false children)
  | [] => rfl
  | child :: children => by
      rw [piecesOfChildren, List.flatMap_append, pieces_text ifs child, piecesOfChildren_text ifs children]
      rfl

end

mutual

theorem withoutDelimiters_expanded (ifs : Str) (quoted : Bool) :
    (word : Word) → isExpanded word = true → isExpanded (withoutDelimiters ifs quoted word) = true
  | .string _ _ _ _, _ => by
      rw [withoutDelimiters]
      split <;> rfl
  | .list children _ _ _, expanded => withoutDelimitersIn_expanded ifs _ children expanded
  | .parameter _, expanded => expanded
  | .command _ _ _, expanded => expanded
  | .arithmetic _, expanded => expanded
  | .null, expanded => expanded

theorem withoutDelimitersIn_expanded (ifs : Str) (quoted : Bool) : (children : List Word) →
    areExpanded children = true → areExpanded (withoutDelimitersIn ifs quoted children) = true
  | [], _ => rfl
  | child :: children, expanded => by
      simp only [areExpanded, Bool.and_eq_true] at expanded
      simp only [withoutDelimitersIn, areExpanded, Bool.and_eq_true]
      exact ⟨withoutDelimiters_expanded ifs quoted child expanded.1,
        withoutDelimitersIn_expanded ifs quoted children expanded.2⟩

end

/-- The fields hold the characters of the word in their order, except for the
delimiters in its unquoted strings. -/
theorem splitFields_characters (word : Word) (ifs : Option Str) (expanded : isExpanded word = true) :
    ∃ fields strs, splitFields word ifs = some fields ∧ getFieldsStr fields = some strs ∧
      mrshWordStr (withoutDelimiters (ifs.getD defaultIfs) false word) = some strs.flatten := by
  by_cases empty : ifs = some []
  · subst empty
    obtain ⟨copy, copied, copyExpanded, same⟩ := mrshWordCopy_expanded 0 word expanded
    have str := mrshWordStr_expanded false copy copyExpanded
    refine ⟨[copy], [(quotedText false copy).map Prod.fst], by simp [splitFields, copied],
      by simp [getFieldsStr, str], ?_⟩
    rw [Option.getD_some, withoutDelimiters_none, mrshWordStr_expanded false word expanded, same]
    exact congrArg some (List.append_nil _).symm
  · obtain ⟨fields, split, fieldsExpanded, same⟩ := splitFields_machine expanded empty
    refine ⟨fields, _, split, getFieldsStr_expanded fields fieldsExpanded, ?_⟩
    have kept := Splitter.run_flatten (pieces (ifs.getD defaultIfs) word) Splitter.init
    rw [← same, pieces_text] at kept
    have str : (fields.map fun field => (quotedText false field).map Prod.fst).flatten =
        (fields.map (quotedText false)).flatten.map Prod.fst := by
      rw [List.map_flatten, List.map_map]
      rfl
    rw [mrshWordStr_expanded false _ (withoutDelimiters_expanded _ false word expanded), str, kept]
    rfl

/-- The value `a b` of a parameter behind a quoted space, split at the default
delimiters. -/
theorem splitFields_characters_space :
    ∃ fields strs,
      splitFields (.list [.list [.string [' '] false false .invalid] true .invalid .invalid,
        .string ['a', ' ', 'b'] false true .invalid] false .invalid .invalid) none = some fields ∧
      getFieldsStr fields = some strs ∧
      mrshWordStr (withoutDelimiters defaultIfs false
        (.list [.list [.string [' '] false false .invalid] true .invalid .invalid,
          .string ['a', ' ', 'b'] false true .invalid] false .invalid .invalid)) = some strs.flatten :=
  splitFields_characters (.list [.list [.string [' '] false false .invalid] true .invalid .invalid,
    .string ['a', ' ', 'b'] false true .invalid] false .invalid .invalid) none rfl

end Mrsh
