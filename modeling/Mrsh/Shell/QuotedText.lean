import Mrsh.Shell.Word

namespace Mrsh

/-! # The text of an expanded word

A word of string and list nodes stands for characters, each of which is quoted
or not. The string of the word, its copies and whether it is a pattern depend on
nothing else.
-/

/-- A text whose characters are marked as quoted or not. -/
abbrev QuotedText := List (Char × Bool)

mutual

def quotedText (quoted : Bool) : Word → QuotedText
  | .string str singleQuoted _ _ => str.map (·, quoted || singleQuoted)
  | .list children doubleQuoted _ _ => quotedTextOfChildren (quoted || doubleQuoted) children
  | _ => []

def quotedTextOfChildren (quoted : Bool) : List Word → QuotedText
  | [] => []
  | child :: children => quotedText quoted child ++ quotedTextOfChildren quoted children

end

mutual

/-- Whether the word is built of string and list nodes. -/
def isExpanded : Word → Bool
  | .string _ _ _ _ => true
  | .list children _ _ _ => areExpanded children
  | _ => false

def areExpanded : List Word → Bool
  | [] => true
  | child :: children => isExpanded child && areExpanded children

end

theorem areExpanded_append (first second : List Word) :
    areExpanded (first ++ second) = (areExpanded first && areExpanded second) := by
  induction first with
  | nil => simp [areExpanded]
  | cons word words ih => simp only [List.cons_append, areExpanded, ih, Bool.and_assoc]

mutual

theorem mrshWordCopy_expanded (generation : Nat) : (word : Word) → isExpanded word = true →
    ∃ copy, mrshWordCopy generation word = some copy ∧ isExpanded copy = true ∧
      ∀ quoted, quotedText quoted copy = quotedText quoted word
  | .string str singleQuoted _ _, _ => ⟨_, rfl, rfl, fun _ => rfl⟩
  | .list children doubleQuoted _ _, expanded => by
      obtain ⟨copies, copied, copiesExpanded, same⟩ :=
        wordArrayCopy_expanded generation children expanded
      refine ⟨.list copies doubleQuoted .invalid .invalid, ?_, copiesExpanded, fun quoted => same _⟩
      simp only [mrshWordCopy, copied, Option.bind_eq_bind, Option.bind_some, Option.pure_def]
  | .parameter _, expanded => by simp [isExpanded] at expanded
  | .command _ _ _, expanded => by simp [isExpanded] at expanded
  | .arithmetic _, expanded => by simp [isExpanded] at expanded
  | .null, expanded => by simp [isExpanded] at expanded

theorem wordArrayCopy_expanded (generation : Nat) : (words : List Word) → areExpanded words = true →
    ∃ copies, wordArrayCopy generation words = some copies ∧ areExpanded copies = true ∧
      ∀ quoted, quotedTextOfChildren quoted copies = quotedTextOfChildren quoted words
  | [], _ => ⟨[], rfl, rfl, fun _ => rfl⟩
  | word :: words, expanded => by
      simp only [areExpanded, Bool.and_eq_true] at expanded
      obtain ⟨copy, copied, copyExpanded, sameHead⟩ :=
        mrshWordCopy_expanded generation word expanded.1
      obtain ⟨copies, restCopied, copiesExpanded, sameTail⟩ :=
        wordArrayCopy_expanded generation words expanded.2
      refine ⟨copy :: copies, ?_, ?_, fun quoted => ?_⟩
      · simp only [wordArrayCopy, copied, restCopied, Option.bind_eq_bind, Option.bind_some, Option.pure_def]
      · simp only [areExpanded, copyExpanded, copiesExpanded, Bool.and_self]
      · simp only [quotedTextOfChildren, sameHead, sameTail]

end

theorem quotedTextOfChildren_append (quoted : Bool) (first second : List Word) :
    quotedTextOfChildren quoted (first ++ second) =
      quotedTextOfChildren quoted first ++ quotedTextOfChildren quoted second := by
  induction first with
  | nil => rfl
  | cons child children ih => simp only [List.cons_append, quotedTextOfChildren, ih, List.append_assoc]

/-! ## What depends on the text only -/

mutual

theorem mrshWordStr_expanded (quoted : Bool) : (word : Word) → isExpanded word = true →
    mrshWordStr word = some ((quotedText quoted word).map Prod.fst)
  | .string str singleQuoted _ _, _ => by
      simp only [mrshWordStr, quotedText, List.map_map, Function.comp_def, List.map_id']
  | .list children doubleQuoted _ _, expanded => wordsStr_expanded _ children expanded
  | .parameter _, expanded => by simp [isExpanded] at expanded
  | .command _ _ _, expanded => by simp [isExpanded] at expanded
  | .arithmetic _, expanded => by simp [isExpanded] at expanded
  | .null, expanded => by simp [isExpanded] at expanded

theorem wordsStr_expanded (quoted : Bool) : (words : List Word) → areExpanded words = true →
    wordsStr words = some ((quotedTextOfChildren quoted words).map Prod.fst)
  | [], _ => rfl
  | word :: words, expanded => by
      simp only [areExpanded, Bool.and_eq_true] at expanded
      simp only [wordsStr, mrshWordStr_expanded quoted word expanded.1,
        wordsStr_expanded quoted words expanded.2, quotedTextOfChildren, List.map_append,
        Option.bind_eq_bind, Option.bind_some, Option.pure_def]

end

theorem getFieldsStr_expanded (fields : List Word) (expanded : areExpanded fields = true) :
    getFieldsStr fields = some (fields.map fun field => (quotedText false field).map Prod.fst) := by
  induction fields with
  | nil => rfl
  | cons field fields ih =>
      simp only [areExpanded, Bool.and_eq_true] at expanded
      have rest := ih expanded.2
      unfold getFieldsStr at rest ⊢
      rw [List.mapM_cons, mrshWordStr_expanded false field expanded.1, rest]
      rfl

/-- A character that `glob` would take as part of a pattern. -/
def isActiveMetachar (c : Char × Bool) : Bool := !c.2 && isPathnameMetachar c.1

theorem any_quoted (quoted : Bool) (str : Str) :
    (str.map (·, quoted)).any isActiveMetachar = (!quoted && str.any isPathnameMetachar) := by
  induction str with
  | nil => simp
  | cons c str ih => cases quoted <;> simp_all [isActiveMetachar]

mutual

theorem quotedText_true : (word : Word) → (quotedText true word).any isActiveMetachar = false
  | .string str _ _ _ => by rw [quotedText, Bool.true_or, any_quoted]; rfl
  | .list children _ _ _ => quotedTextOfChildren_true children
  | .parameter _ | .command _ _ _ | .arithmetic _ | .null => rfl

theorem quotedTextOfChildren_true : (words : List Word) →
    (quotedTextOfChildren true words).any isActiveMetachar = false
  | [] => rfl
  | word :: words => by
      rw [quotedTextOfChildren, List.any_append, quotedText_true word, quotedTextOfChildren_true words,
        Bool.or_self]

end

mutual

theorem needsPathnameExpansion_expanded : (word : Word) → isExpanded word = true →
    needsPathnameExpansion word = some ((quotedText false word).any isActiveMetachar)
  | .string str singleQuoted _ _, _ => by
      rw [needsPathnameExpansion, quotedText, Bool.false_or, any_quoted]
  | .list children true _ _, _ => by
      rw [needsPathnameExpansion, if_pos rfl, quotedText]
      exact congrArg some (quotedTextOfChildren_true children).symm
  | .list children false _ _, expanded => childrenNeedPathnameExpansion_expanded children expanded
  | .parameter _, expanded => by simp [isExpanded] at expanded
  | .command _ _ _, expanded => by simp [isExpanded] at expanded
  | .arithmetic _, expanded => by simp [isExpanded] at expanded
  | .null, expanded => by simp [isExpanded] at expanded

theorem childrenNeedPathnameExpansion_expanded : (words : List Word) → areExpanded words = true →
    childrenNeedPathnameExpansion words = some ((quotedTextOfChildren false words).any isActiveMetachar)
  | [], _ => rfl
  | word :: words, expanded => by
      simp only [areExpanded, Bool.and_eq_true] at expanded
      simp only [childrenNeedPathnameExpansion, needsPathnameExpansion_expanded word expanded.1,
        childrenNeedPathnameExpansion_expanded words expanded.2, quotedTextOfChildren, List.any_append,
        Option.bind_eq_bind, Option.bind_some]
      cases (quotedText false word).any isActiveMetachar <;> rfl

end

end Mrsh
