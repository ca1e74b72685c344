import Mrsh.Parser.Quoting
import Mrsh.Shell.AtSign
import Mrsh.Shell.PatternText

namespace Mrsh

open Mrsh.Data

/-! # The expansion of quoted text

The word of a text whose characters are all quoted is expanded to one field. The
characters after backslashes are marked like unquoted ones, so that a tilde
among the first of them is replaced and a pattern character is passed to `glob`.
-/

/-- The marks that the word gives to the characters. -/
def Part.marked : Part → QuotedText
  | .plain chars => chars.map (·, false)
  | .single chars => chars.map (·, true)
  | .double chars => chars.map (·, true)

/-- The characters after backslashes at the start of the text. -/
def leadingBackslashes : List Segment → Str
  | .backslash chars _ _ :: segments => chars ++ leadingBackslashes segments
  | _ => []

/-- All characters after backslashes. -/
def backslashChars : List Segment → Str
  | [] => []
  | .backslash chars _ _ :: segments => chars ++ backslashChars segments
  | _ :: segments => backslashChars segments

def onlyBackslashes (segments : List Segment) : Bool :=
  segments.all fun
    | .backslash _ _ _ => true
    | _ => false

/-! ## Words that are not split -/

mutual

/-- No string of the word may be split. -/
def isUnsplit : Word → Bool
  | .string _ singleQuoted splitFields _ => singleQuoted || !splitFields
  | .list children doubleQuoted _ _ => doubleQuoted || areUnsplit children
  | _ => false

def areUnsplit : List Word → Bool
  | [] => true
  | child :: children => isUnsplit child && areUnsplit children

end

/-- The text of a piece that is no delimiter. -/
def Piece.content : Piece → Option QuotedText
  | .plain text => some text
  | .doubleQuoted text => some text
  | _ => none

mutual

theorem pieces_unsplit (ifs : Str) : (word : Word) → isUnsplit word = true →
    ∃ texts : List QuotedText, (pieces ifs word).map Piece.content = texts.map some ∧
      texts.flatten = quotedText false word
  | .string str singleQuoted splitFields range, unsplit => by
      have whole : (singleQuoted || !splitFields) = true := unsplit
      refine ⟨[quotedText false (.string str singleQuoted splitFields range)], ?_, by simp⟩
      rw [pieces, if_pos whole]
      rfl
  | .list children true _ _, _ => ⟨[quotedTextOfChildren true children], rfl, by simp [quotedText]⟩
  | .list children false _ _, unsplit => piecesOfChildren_unsplit ifs children (by simpa [isUnsplit] using unsplit)
  | .parameter _, unsplit => by simp [isUnsplit] at unsplit
  | .command _ _ _, unsplit => by simp [isUnsplit] at unsplit
  | .arithmetic _, unsplit => by simp [isUnsplit] at unsplit
  | .null, unsplit => by simp [isUnsplit] at unsplit

theorem piecesOfChildren_unsplit (ifs : Str) : (words : List Word) → areUnsplit words = true →
    ∃ texts : List QuotedText, (piecesOfChildren ifs words).map Piece.content = texts.map some ∧
      texts.flatten = quotedTextOfChildren false words
  | [], _ => ⟨[], rfl, rfl⟩
  | word :: words, unsplit => by
      simp only [areUnsplit, Bool.and_eq_true] at unsplit
      obtain ⟨first, firstPieces, firstText⟩ := pieces_unsplit ifs word unsplit.1
      obtain ⟨rest, restPieces, restText⟩ := piecesOfChildren_unsplit ifs words unsplit.2
      refine ⟨first ++ rest, ?_, ?_⟩
      · rw [piecesOfChildren, List.map_append, firstPieces, restPieces, List.map_append]
      · rw [List.flatten_append, firstText, restText, quotedTextOfChildren]

end

theorem foldl_contents (pieces : List Piece) (texts : List QuotedText)
    (contents : pieces.map Piece.content = texts.map some) (machine : Splitter) :
    (pieces.foldl Splitter.step machine).fields = machine.fields ∧
      (pieces.foldl Splitter.step machine).cur =
        if pieces.isEmpty then machine.cur else some (machine.cur.getD [] ++ texts.flatten) := by
  induction pieces generalizing texts machine with
  | nil => exact ⟨rfl, rfl⟩
  | cons piece pieces ih =>
      cases texts with
      | nil => simp at contents
      | cons text texts =>
          simp only [List.map_cons, List.cons.injEq] at contents
          have step : (machine.step piece).fields = machine.fields ∧
              (machine.step piece).cur = some (machine.cur.getD [] ++ text) := by
            cases piece <;> cases contents.1 <;> exact ⟨rfl, rfl⟩
          obtain ⟨fields, cur⟩ := ih texts contents.2 (machine.step piece)
          refine ⟨fields.trans step.1, cur.trans ?_⟩
          rw [step.2]
          cases pieces with
          | nil =>
              have none_ : texts = [] := by simpa using contents.2.symm
              simp [none_]
          | cons => simp

theorem splitFields_unsplit (ifs : Option Str) {word : Word} (expanded : isExpanded word = true)
    (unsplit : isUnsplit word = true) (some_ : ∀ ifs, pieces ifs word ≠ []) :
    ∃ field, splitFields word ifs = some [field] ∧ isExpanded field = true ∧
      quotedText false field = quotedText false word := by
  by_cases empty : ifs = some []
  · subst empty
    obtain ⟨copy, copied, copyExpanded, same⟩ := mrshWordCopy_expanded 0 word expanded
    exact ⟨copy, by simp [splitFields, copied], copyExpanded, same false⟩
  · obtain ⟨fields, split, fieldsExpanded, texts⟩ := splitFields_machine expanded empty
    obtain ⟨contents, pieces_, text⟩ := pieces_unsplit (ifs.getD defaultIfs) word unsplit
    obtain ⟨noField, cur⟩ := foldl_contents _ contents pieces_ Splitter.init
    rw [if_neg (by simpa using some_ (ifs.getD defaultIfs)), text] at cur
    rw [Splitter.finish, noField, cur] at texts
    obtain ⟨field, rfl⟩ : ∃ field, fields = [field] := by
      have one := congrArg List.length texts
      simpa [Splitter.init, List.length_eq_one_iff] using one
    refine ⟨field, split, by simpa [areExpanded] using fieldsExpanded, ?_⟩
    simpa [Splitter.init] using texts

/-! ## Lists and their only child -/

theorem quotedText_wordOf (words : List Word) :
    quotedText false (wordOf words) = quotedTextOfChildren false words := by
  rcases words with _ | ⟨word, _ | ⟨second, rest⟩⟩
  · rfl
  · simp [wordOf, quotedTextOfChildren]
  · rfl

theorem isExpanded_wordOf (words : List Word) : isExpanded (wordOf words) = areExpanded words := by
  rcases words with _ | ⟨word, _ | ⟨second, rest⟩⟩
  · rfl
  · simp [wordOf, areExpanded]
  · rfl

theorem isUnsplit_wordOf (words : List Word) : isUnsplit (wordOf words) = areUnsplit words := by
  rcases words with _ | ⟨word, _ | ⟨second, rest⟩⟩
  · rfl
  · simp [wordOf, areUnsplit]
  · simp [wordOf, isUnsplit]

theorem pieces_wordOf (ifs : Str) (words : List Word) : pieces ifs (wordOf words) = piecesOfChildren ifs words := by
  rcases words with _ | ⟨word, _ | ⟨second, rest⟩⟩
  · rfl
  · simp [wordOf, piecesOfChildren]
  · rfl

theorem Part.quotedText_word (part : Part) : quotedText false part.word = part.marked := by
  cases part with
  | plain chars => rfl
  | single chars => rfl
  | double chars => cases chars <;> simp [Part.word, quotedText, quotedTextOfChildren, Part.marked]

theorem Part.quotedTextOfChildren_words (parts : List Part) :
    quotedTextOfChildren false (parts.map Part.word) = parts.flatMap Part.marked := by
  induction parts with
  | nil => rfl
  | cons part parts ih =>
      rw [List.map_cons, quotedTextOfChildren, part.quotedText_word, ih, List.flatMap_cons]

theorem Part.words_unsplit (parts : List Part) :
    areExpanded (parts.map Part.word) = true ∧ areUnsplit (parts.map Part.word) = true := by
  induction parts with
  | nil => exact ⟨rfl, rfl⟩
  | cons part parts ih =>
      have one : isExpanded part.word = true ∧ isUnsplit part.word = true := by
        cases part with
        | double chars => cases chars <;> exact ⟨rfl, rfl⟩
        | _ => exact ⟨rfl, rfl⟩
      simp [areExpanded, areUnsplit, ih, one]

theorem Part.pieces_word (ifs : Str) (part : Part) : pieces ifs part.word ≠ [] := by
  cases part <;> simp [Part.word, pieces]

/-! ## The text and its start -/

def Segment.marked : Segment → QuotedText
  | .backslash chars _ _ => chars.map (·, false)
  | .single chars _ => chars.map (·, true)
  | .double _ chars _ => chars.map (·, true)

theorem assemble_marked (buf : Str) (segments : List Segment) :
    (assemble buf segments).flatMap Part.marked = buf.map (·, false) ++ segments.flatMap Segment.marked := by
  have flushed : ∀ buf, (Part.flush buf).flatMap Part.marked = buf.map (·, false) := by
    intro buf
    cases buf <;> simp [Part.flush, Part.marked]
  induction segments generalizing buf with
  | nil => simpa [assemble] using flushed buf
  | cons segment segments ih =>
      cases segment <;> simp [assemble, ih, flushed, Segment.marked, Part.marked]

theorem marked_chars (segments : List Segment) :
    (segments.flatMap Segment.marked).map Prod.fst = segmentsChars segments := by
  induction segments with
  | nil => rfl
  | cons segment segments ih =>
      rw [List.flatMap_cons, List.map_append, ih]
      cases segment <;> simp [Segment.marked, segmentsChars, Segment.chars, Function.comp_def]

theorem marked_active (segments : List Segment) :
    (segments.flatMap Segment.marked).any isActiveMetachar = (backslashChars segments).any isPathnameMetachar := by
  induction segments with
  | nil => rfl
  | cons segment segments ih =>
      rw [List.flatMap_cons, List.any_append, ih]
      cases segment <;> simp [Segment.marked, backslashChars, any_quoted, - List.any_map]

/-- The segments after the backslashes at the start. -/
def afterBackslashes : List Segment → List Segment
  | .backslash _ _ _ :: segments => afterBackslashes segments
  | segments => segments

theorem assemble_start (buf : Str) (segments : List Segment) :
    assemble buf segments =
      Part.flush (buf ++ leadingBackslashes segments) ++ assemble [] (afterBackslashes segments) := by
  induction segments generalizing buf with
  | nil => simp [assemble, leadingBackslashes, afterBackslashes, Part.flush]
  | cons segment segments ih =>
      cases segment with
      | backslash chars _ _ => rw [assemble, ih, leadingBackslashes, afterBackslashes, List.append_assoc]
      | _ => simp [assemble, leadingBackslashes, afterBackslashes, Part.flush]

theorem marked_start (segments : List Segment) :
    segments.flatMap Segment.marked = (leadingBackslashes segments).map (·, false) ++
      (afterBackslashes segments).flatMap Segment.marked := by
  induction segments with
  | nil => rfl
  | cons segment segments ih =>
      cases segment with
      | backslash chars _ _ =>
          simp only [List.flatMap_cons, ih, leadingBackslashes, afterBackslashes, List.map_append,
            Segment.marked, List.append_assoc]
      | _ => rfl

/-! ## The tilde -/

section

variable (home : Option Str) (getpwnam : Str → Option Str)

/-- The directory that a tilde at the start of the text is replaced by, and the length of the
tilde-prefix. -/
def tildePrefix (segments : List Segment) : Option (Str × Nat) :=
  expandTildeAt home getpwnam (leadingBackslashes segments) (onlyBackslashes segments)

/-- The first child after tilde expansion, if the text starts with backslashes. -/
def firstWords (segments : List Segment) : List Word :=
  match tildePrefix home getpwnam segments with
  | some (dir, offset) =>
      [mrshWordListCreate [mrshWordStringCreate dir true,
        mrshWordStringCreate ((leadingBackslashes segments).drop offset) false] false]
  | none => (Part.flush (leadingBackslashes segments)).map Part.word

/-- The word after tilde expansion. -/
def afterTilde (segments : List Segment) : Word :=
  wordOf (firstWords home getpwnam segments ++ (assemble [] (afterBackslashes segments)).map Part.word)

theorem isLognameChar_plain {c : Char} (allowed : isLognameChar c = true) : isPathnameMetachar c = false := by
  cases active : isPathnameMetachar c with
  | false => rfl
  | true =>
      simp only [isPathnameMetachar, Bool.or_eq_true, beq_iff_eq] at active
      rcases active with ((rfl | rfl) | rfl) | rfl <;> revert allowed <;> decide

theorem expandTildeAt_some {str : Str} {last : Bool} {dir : Str} {offset : Nat}
    (expanded : expandTildeAt home getpwnam str last = some (dir, offset)) :
    (str.take offset).any isPathnameMetachar = false := by
  unfold expandTildeAt at expanded
  split at expanded
  · rename_i rest
    by_cases logname : (rest.takeWhile (· != '/')).all isLognameChar = true
    · have length : offset = (rest.takeWhile (· != '/')).length + 1 := by
        simp only [logname, if_true] at expanded
        split at expanded
        · cases expanded
        · split at expanded <;>
            (obtain ⟨found, _, same⟩ := Option.bind_eq_some_iff.mp expanded; cases same; rfl)
      have name : ('~' :: rest).take offset = '~' :: rest.takeWhile (· != '/') := by
        rw [length, List.take_succ_cons]
        exact congrArg _ (List.prefix_iff_eq_take.mp (List.takeWhile_prefix _)).symm
      rw [name, List.any_cons, Bool.or_eq_false_iff]
      refine ⟨by decide, List.any_eq_false.mpr fun c member => ?_⟩
      simpa using isLognameChar_plain (List.all_eq_true.mp logname c member)
    · simp only [logname] at expanded
      cases expanded
  · cases expanded

theorem expandTildeChildren_rest (last : Bool) (parts : List Part) :
    expandTildeChildren home getpwnam false false last (parts.map Part.word) = parts.map Part.word := by
  induction parts with
  | nil => rfl
  | cons part parts ih =>
      rw [List.map_cons, expandTildeChildren, ih]
      cases part <;> simp [Part.word, expandTildeIn]

theorem afterBackslashes_nil (segments : List Segment) :
    (afterBackslashes segments = [] ↔ onlyBackslashes segments = true) := by
  induction segments with
  | nil => simp [afterBackslashes, onlyBackslashes]
  | cons segment segments ih =>
      cases segment <;> simp_all [afterBackslashes, onlyBackslashes]

theorem assemble_afterBackslashes (segments : List Segment) :
    onlyBackslashes segments = false →
      ∃ part parts, assemble [] (afterBackslashes segments) = part :: parts ∧
        ∀ chars, part ≠ .plain chars := by
  induction segments with
  | nil => intro only; cases only
  | cons segment segments ih =>
      intro only
      cases segment with
      | backslash chars _ _ => exact ih (by simpa [onlyBackslashes] using only)
      | single chars _ => exact ⟨.single chars, assemble [] segments, rfl, by simp⟩
      | double _ chars _ => exact ⟨.double chars, assemble [] segments, rfl, by simp⟩

theorem firstWords_plain {segments : List Segment} (some_ : leadingBackslashes segments ≠ []) :
    firstWords home getpwnam segments =
      [expandTildeIn home getpwnam false true (onlyBackslashes segments)
        (Part.plain (leadingBackslashes segments)).word] := by
  have flushed : Part.flush (leadingBackslashes segments) = [.plain (leadingBackslashes segments)] := by
    simp [Part.flush, some_]
  unfold firstWords tildePrefix
  rw [Part.word, expandTildeIn, if_pos rfl]
  cases expandTildeAt home getpwnam (leadingBackslashes segments) (onlyBackslashes segments) with
  | none => simp [flushed, Part.word]
  | some found => simp [mrshWordListCreate]

theorem expandTilde_assemble (segments : List Segment) :
    expandTilde home getpwnam (wordOf ((assemble [] segments).map Part.word)) false =
      afterTilde home getpwnam segments := by
  rw [assemble_start, List.nil_append, List.map_append, afterTilde, expandTilde]
  by_cases empty : leadingBackslashes segments = []
  · have none_ : firstWords home getpwnam segments = [] := by
      simp [firstWords, tildePrefix, empty, expandTildeAt, Part.flush]
    rw [none_, empty]
    cases only : onlyBackslashes segments with
    | true =>
        rw [(afterBackslashes_nil segments).mpr only]
        rfl
    | false =>
        obtain ⟨part, parts, after, notPlain⟩ := assemble_afterBackslashes segments only
        rw [after]
        have first : ∀ last, expandTildeIn home getpwnam false true last part.word = part.word := by
          cases part with
          | plain chars => exact absurd rfl (notPlain chars)
          | _ => exact fun _ => rfl
        cases parts with
        | nil => exact first true
        | cons next parts =>
            have rest := expandTildeChildren_rest home getpwnam true (next :: parts)
            simp only [Part.flush, List.isEmpty_nil, if_true, List.map_nil, List.nil_append, List.map_cons, wordOf,
              expandTildeIn, expandTildeChildren, first] at rest ⊢
            rw [rest]
  · rw [firstWords_plain home getpwnam empty]
    have flushed : Part.flush (leadingBackslashes segments) = [.plain (leadingBackslashes segments)] := by
      simp [Part.flush, empty]
    rw [flushed]
    cases only : onlyBackslashes segments with
    | true =>
        rw [(afterBackslashes_nil segments).mpr only]
        rfl
    | false =>
        obtain ⟨part, parts, after, _⟩ := assemble_afterBackslashes segments only
        rw [after]
        have rest := expandTildeChildren_rest home getpwnam true (part :: parts)
        simp only [List.map_cons, List.map_nil, List.cons_append, List.nil_append, wordOf, expandTildeIn.eq_2,
          expandTildeChildren, List.isEmpty_cons, Bool.and_false] at rest ⊢
        rw [rest]

/-- The marks of the text after tilde expansion. -/
def expandedMarks (segments : List Segment) : QuotedText :=
  (match tildePrefix home getpwnam segments with
    | some (dir, offset) => dir.map (·, true) ++ ((leadingBackslashes segments).drop offset).map (·, false)
    | none => (leadingBackslashes segments).map (·, false)) ++
  (afterBackslashes segments).flatMap Segment.marked

theorem firstWords_text (segments : List Segment) :
    areExpanded (firstWords home getpwnam segments) = true ∧
      areUnsplit (firstWords home getpwnam segments) = true ∧
      quotedTextOfChildren false (firstWords home getpwnam segments) ++
        (afterBackslashes segments).flatMap Segment.marked = expandedMarks home getpwnam segments := by
  unfold firstWords expandedMarks
  cases tildePrefix home getpwnam segments with
  | some found =>
      refine ⟨rfl, rfl, ?_⟩
      simp [quotedTextOfChildren, quotedText, mrshWordListCreate, mrshWordStringCreate]
  | none =>
      obtain ⟨expanded, unsplit⟩ := Part.words_unsplit (Part.flush (leadingBackslashes segments))
      refine ⟨expanded, unsplit, ?_⟩
      rw [Part.quotedTextOfChildren_words]
      by_cases empty : leadingBackslashes segments = [] <;> simp [Part.flush, empty, Part.marked]

theorem afterTilde_text (segments : List Segment) :
    isExpanded (afterTilde home getpwnam segments) = true ∧
      isUnsplit (afterTilde home getpwnam segments) = true ∧
      quotedText false (afterTilde home getpwnam segments) = expandedMarks home getpwnam segments := by
  obtain ⟨firstExpanded, firstUnsplit, text⟩ := firstWords_text home getpwnam segments
  obtain ⟨restExpanded, restUnsplit⟩ := Part.words_unsplit (assemble [] (afterBackslashes segments))
  have unsplit : ∀ first second, areUnsplit (first ++ second) = (areUnsplit first && areUnsplit second) := by
    intro first second
    induction first with
    | nil => simp [areUnsplit]
    | cons word words ih => simp only [List.cons_append, areUnsplit, ih, Bool.and_assoc]
  refine ⟨?_, ?_, ?_⟩
  · rw [afterTilde, isExpanded_wordOf, areExpanded_append, firstExpanded, restExpanded, Bool.and_self]
  · rw [afterTilde, isUnsplit_wordOf, unsplit, firstUnsplit, restUnsplit, Bool.and_self]
  · rw [afterTilde, quotedText_wordOf, quotedTextOfChildren_append, Part.quotedTextOfChildren_words, assemble_marked,
      List.map_nil, List.nil_append, text]

theorem leadingBackslashes_ne_nil {segments : List Segment} (some_ : segments ≠ [])
    (only : onlyBackslashes segments = true) : leadingBackslashes segments ≠ [] := by
  obtain ⟨segment, segments, rfl⟩ := List.exists_cons_of_ne_nil some_
  cases segment with
  | backslash chars written _ => simp [leadingBackslashes, written]
  | _ => cases only

theorem pieces_afterTilde {segments : List Segment} (some_ : segments ≠ []) (ifs : Str) :
    pieces ifs (afterTilde home getpwnam segments) ≠ [] := by
  rw [afterTilde, pieces_wordOf, piecesOfChildren_append]
  cases only : onlyBackslashes segments with
  | false =>
      obtain ⟨part, parts, after, _⟩ := assemble_afterBackslashes segments only
      rw [after, List.map_cons, piecesOfChildren]
      simp [part.pieces_word ifs]
  | true =>
      have leading := leadingBackslashes_ne_nil some_ only
      rw [firstWords_plain home getpwnam leading, Part.word, expandTildeIn]
      simp only [piecesOfChildren, Bool.false_eq_true, if_false, if_true, List.append_nil]
      split <;> simp [mrshWordListCreate, pieces, piecesOfChildren, mrshWordStringCreate]

/-! ## What keeps the characters as they are -/

/-- The characters after backslashes have no meaning of their own: no metacharacter is among them, and
a tilde-prefix at their start is the name of the directory itself. -/
def KeepsQuoting (segments : List Segment) : Prop :=
  (∀ c ∈ backslashChars segments, isPathnameMetachar c = false) ∧
  ∀ dir offset, tildePrefix home getpwnam segments = some (dir, offset) →
    dir = (leadingBackslashes segments).take offset

theorem backslashChars_start (segments : List Segment) :
    backslashChars segments = leadingBackslashes segments ++ backslashChars (afterBackslashes segments) := by
  induction segments with
  | nil => rfl
  | cons segment segments ih =>
      cases segment with
      | backslash chars _ _ => rw [backslashChars, ih, leadingBackslashes, afterBackslashes, List.append_assoc]
      | _ => rfl

theorem expandedMarks_active (segments : List Segment) :
    (expandedMarks home getpwnam segments).any isActiveMetachar =
      (backslashChars segments).any isPathnameMetachar := by
  rw [backslashChars_start, List.any_append, expandedMarks, List.any_append, marked_active]
  congr 1
  cases tilde : tildePrefix home getpwnam segments with
  | none => simp [any_quoted, -List.any_map]
  | some found =>
      have quiet := expandTildeAt_some home getpwnam tilde
      have split : (leadingBackslashes segments).any isPathnameMetachar =
          (((leadingBackslashes segments).take found.2).any isPathnameMetachar ||
            ((leadingBackslashes segments).drop found.2).any isPathnameMetachar) := by
        rw [← List.any_append, List.take_append_drop]
      rw [split, quiet]
      simp only [List.any_append, any_quoted, Bool.not_true, Bool.false_and, Bool.false_or, Bool.not_false,
        Bool.true_and]

theorem expandedMarks_chars (segments : List Segment) :
    (expandedMarks home getpwnam segments).map Prod.fst = segmentsChars segments ↔
      ∀ dir offset, tildePrefix home getpwnam segments = some (dir, offset) →
        dir = (leadingBackslashes segments).take offset := by
  have whole := marked_chars segments
  rw [marked_start, List.map_append] at whole
  rw [← whole, expandedMarks, List.map_append, List.append_cancel_right_eq]
  cases tilde : tildePrefix home getpwnam segments with
  | none => simp
  | some found =>
      obtain ⟨dir, offset⟩ := found
      have chars : ∀ (quoted : Bool) (str : Str), (str.map (·, quoted)).map Prod.fst = str := by
        simp [Function.comp_def]
      simp only [List.map_append, chars]
      have same : dir ++ (leadingBackslashes segments).drop offset = leadingBackslashes segments ↔
          dir = (leadingBackslashes segments).take offset := by
        conv_lhs => rhs; rw [← List.take_append_drop offset (leadingBackslashes segments)]
        rw [List.append_cancel_right_eq]
      rw [same]
      simp

end

/-! ## Expanding the word -/

section

variable {World : Type} [System World]

def homeOf (state : Shell World) : Option Str := (state.vars.get "HOME".toList).map (·.value)

theorem wordToPattern_expanded {word : Word} (expanded : isExpanded word = true)
    (needed : needsPathnameExpansion word = some true) : ∃ text, wordToPattern word = some (some text) :=
  ⟨(quotedText false word).flatMap (escapedSymbol '\\' isPathnameMetachar), by
    simp only [wordToPattern, needed, wordToPatternIn_expanded false word expanded, Option.bind_eq_bind,
      Option.bind_some,
      if_true]⟩

theorem expandPathnames_one (state : Shell World) {field : Word} (expanded : isExpanded field = true) :
    if (quotedText false field).any isActiveMetachar then
      state.globbed.length < (Leaf.run (expandPathnames [field]) state).state.globbed.length
    else Leaf.run (expandPathnames [field]) state =
      .done (some [(quotedText false field).map Prod.fst]) state := by
  have pattern := needsPathnameExpansion_expanded field expanded
  have str := mrshWordStr_expanded false field expanded
  cases active : (quotedText false field).any isActiveMetachar with
  | false =>
      rw [active] at pattern
      simp [expandPathnames, expandPathname, wordToPattern, pattern, str]
  | true =>
      rw [active] at pattern
      obtain ⟨text, converted⟩ := wordToPattern_expanded expanded pattern
      have grows : ∀ more : Str, state.globbed.length < (state.globbed ++ [more]).length := by simp
      simp only [if_true, expandPathnames, expandPathname, converted, orCrash_some, Leaf.run_bind, Leaf.run_pure,
        Outcome.andThen_done, Leaf.run_update, Leaf.run_call]
      cases (System.glob text state.world).1 with
      | paths paths => exact grows text
      | noMatch =>
          rw [Leaf.run_bind, str]
          exact grows text
      | failed code => exact grows text

/-- The word is expanded to one field, the copy of which is a pattern or not. -/
theorem expandWord_segments (self : Tasks World) (ctx : Context) {read : Word} {segments : List Segment}
    (some_ : segments ≠ [])
    (copied : ∀ generation, mrshWordCopy generation read = some (wordOf ((assemble [] segments).map Part.word)))
    {state : Shell World} (glob : state.options .noglob = false) :
    ∃ field, isExpanded field = true ∧
      quotedText false field = expandedMarks (homeOf state) (System.getpwnam · state.world) segments ∧
      Exec.run (expandWord self ctx read) state =
        (Leaf.run (expandPathnames [field]) { state with nextSerial := state.nextSerial + 1 }).andThen
          fun strs after => .done (match strs with
            | none => (taskStatusError, [])
            | some strs => (0, strs)) after := by
  let between : Shell World := { state with nextSerial := state.nextSerial + 1 }
  let expanded_ := afterTilde (homeOf state) (System.getpwnam · state.world) segments
  obtain ⟨expanded, unsplit, text⟩ := afterTilde_text (homeOf state) (System.getpwnam · state.world) segments
  obtain ⟨field, split, fieldExpanded, same⟩ := splitFields_unsplit (ifsOf state) expanded unsplit
    (pieces_afterTilde (homeOf state) (System.getpwnam · state.world) some_)
  refine ⟨field, fieldExpanded, same.trans text, ?_⟩
  have copyRun : Leaf.run (copyWord read) state = .done (wordOf ((assemble [] segments).map Part.word)) between := by
    simp [copyWord, newSerial, copied, between]
  have tildeRun : Leaf.run (expandTildeWord (wordOf ((assemble [] segments).map Part.word)) false) between =
      .done expanded_ between := by
    rw [expandTildeWord, Leaf.run_bind, envValue, Leaf.run_gets, Outcome.andThen_done, Leaf.run_gets]
    exact congrArg (Outcome.done · between) (expandTilde_assemble _ _ segments)
  have ran : runWord self ctx expanded_ = pure (0, expanded_) := runWordIn_expanded self ctx false expanded_ expanded
  have splitRun : Leaf.run (orCrash (splitFields expanded_ (ifsOf between))) between = .done [field] between := by
    rw [show ifsOf between = ifsOf state from rfl, split]
    rfl
  have globRun : Leaf.run (optionSet .noglob) between = .done false between := by
    rw [optionSet, Leaf.run_gets]
    exact congrArg (Outcome.done · between) glob
  rw [expandWord, Exec.run_leaf_bind_of_done copyRun, Exec.run_leaf_bind_of_done tildeRun, ran]
  change Exec.run (leaf (envValue "IFS".toList) >>= _) between = _
  rw [Exec.run_bind, Exec.run_leaf, envValue, Leaf.run_gets, Outcome.andThen_done, Exec.run_bind, Exec.run_leaf]
  apply (congrArg (Outcome.andThen · _) splitRun).trans
  rw [Outcome.andThen_done, Exec.run_leaf_bind_of_done globRun]
  change Exec.run (leaf (expandPathnames [field]) >>= _) between = _
  rw [Exec.run_bind, Exec.run_leaf]
  congr 1
  funext strs after
  cases strs <;> rfl

/-- The quoted text is expanded to the one field of its characters without `glob` exactly when no metacharacter
comes after a backslash and no tilde-prefix after backslashes at the start is replaced by another text. -/
theorem quotedWord_expanded_iff (productions : Productions) {tail : Str} (stops : StopsWord tail)
    {segments : List Segment} (some_ : segments ≠ []) {parser : Parser}
    (ready : Ready (segmentsText segments ++ tail) parser) :
    ∃ read after, word productions '\x00' parser = .done (some read) after ∧ Ready tail after ∧
      ∀ (self : Tasks World) (ctx : Context) (state : Shell World), state.options .noglob = false →
        ((∃ final, Exec.run (expandWord self ctx read) state = .done (0, [segmentsChars segments]) final ∧
            final.globbed = state.globbed) ↔
          KeepsQuoting (homeOf state) (System.getpwnam · state.world) segments) := by
  obtain ⟨read, after, parsed, atTail, copied⟩ := word_segments productions stops some_ ready
  refine ⟨read, after, parsed, atTail, fun self ctx state glob => ?_⟩
  obtain ⟨field, expanded, text, run⟩ := expandWord_segments self ctx some_ copied glob
  have one := expandPathnames_one { state with nextSerial := state.nextSerial + 1 } expanded
  rw [text, expandedMarks_active] at one
  have quiet : (backslashChars segments).any isPathnameMetachar = false ↔
      ∀ c ∈ backslashChars segments, isPathnameMetachar c = false := by simp
  rw [KeepsQuoting, ← quiet, ← expandedMarks_chars, run]
  cases active : (backslashChars segments).any isPathnameMetachar with
  | true =>
      rw [active, if_pos rfl] at one
      refine ⟨?_, fun keeps => absurd keeps.1 (by decide)⟩
      rintro ⟨final, ended, unglobbed⟩
      cases globbed : Leaf.run (expandPathnames [field]) { state with nextSerial := state.nextSerial + 1 } with
      | done strs after =>
          rw [globbed] at one ended
          obtain ⟨-, rfl⟩ := Outcome.done.inj ended
          rw [Outcome.state_done, unglobbed] at one
          exact absurd one (Nat.lt_irrefl _)
      | stopped reason after =>
          rw [globbed] at ended
          cases ended
  | false =>
      rw [active, if_neg (by decide)] at one
      rw [one, Outcome.andThen_done]
      constructor
      · rintro ⟨final, ended, -⟩
        refine ⟨rfl, ?_⟩
        simpa using congrArg Outcome.value? ended
      · rintro ⟨-, chars⟩
        refine ⟨{ state with nextSerial := state.nextSerial + 1 }, ?_, rfl⟩
        rw [chars]

end

/-- A single-quoted tilde, a double-quoted asterisk and an `a` after a backslash. -/
def threeSegments : List Segment :=
  [.single ['~'] (by simp), .double ['*'] ['*'] (by decide), .backslash ['a'] (by decide) (by simp)]

theorem stopsWord_nil : StopsWord [] := .inl rfl

theorem quotedWord_expanded_three : ∃ read after final,
    word (productions 1) '\x00' (mrshParserWithData "'~'\"*\"\\a".toList) = .done (some read) after ∧
    Exec.run (expandWord (tasks 1) .initial read) (mrshStateCreate [] Machine.isolated) =
      .done (0, [['~', '*', 'a']]) final ∧ final.globbed = [] := by
  obtain ⟨read, after, parsed, _, exactly⟩ := @quotedWord_expanded_iff Machine _ (productions 1) [] stopsWord_nil
    threeSegments (by decide) _ (ready_mrshParserWithData _)
  have keeps : KeepsQuoting none (fun _ => none) threeSegments := by
    refine ⟨by simp [threeSegments, backslashChars, isPathnameMetachar], fun dir offset tilde => ?_⟩
    cases tilde
  obtain ⟨final, expanded, globbed⟩ :=
    (exactly (tasks 1) .initial (mrshStateCreate [] Machine.isolated) rfl).mpr keeps
  exact ⟨read, after, final, parsed, expanded, globbed⟩

/-- The word `\~` is replaced by the home directory. -/
theorem quotedWord_expands_tilde : ∃ read after,
    word (productions 1) '\x00' (mrshParserWithData "\\~".toList) = .done (some read) after ∧
    ¬ ∃ final, Exec.run (expandWord (tasks 1) .initial read)
        { mrshStateCreate [] Machine.isolated with
          vars := Hashtable.empty.set "HOME".toList ⟨"/root".toList, .none⟩ } =
      .done (0, [['~']]) final := by
  let tilde : List Segment := [.backslash ['~'] (by decide) (by simp)]
  let home : Shell Machine := { mrshStateCreate [] Machine.isolated with
    vars := Hashtable.empty.set "HOME".toList ⟨"/root".toList, .none⟩ }
  obtain ⟨read, after, parsed, -, copied⟩ := @word_segments _ (productions 1) [] stopsWord_nil tilde (by decide)
    (ready_mrshParserWithData _)
  obtain ⟨field, expanded, text, run⟩ := @expandWord_segments Machine _ (tasks 1) .initial read tilde (by decide)
    copied home rfl
  have one := expandPathnames_one { home with nextSerial := home.nextSerial + 1 } expanded
  have chars : quotedText false field = "/root".toList.map (·, true) := text.trans (by decide)
  rw [chars, if_neg (by decide)] at one
  refine ⟨read, after, parsed, ?_⟩
  rintro ⟨final, ended⟩
  have values := congrArg Outcome.value? (run.symm.trans ended)
  rw [one, Outcome.andThen_done, Outcome.value?_done, Outcome.value?_done] at values
  exact absurd values (by decide)

end Mrsh
