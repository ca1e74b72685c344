import Mrsh.Parser.Expansions
import Mrsh.Parser.HereDocuments
import Mrsh.Parser.Quoting

namespace Mrsh

open Mrsh.Data

/-! # The delimiters of here-documents

`io_here` accepts any word as a delimiter. What the word stands for is read here
from the text alone and compared with what `mrsh_word_str` and `is_word_quoted`
make of the word that was parsed.
-/

/-- The ways to quote characters of a word. -/
inductive Quoting where
  | backslash
  | single
  | double
deriving DecidableEq

/-- The characters of a delimiter after quote removal, and what quoted a part of it. -/
structure Delimiter where
  chars : Str
  quotings : List Quoting
deriving DecidableEq

namespace Delimiter

def empty : Delimiter := ⟨[], []⟩

def cons (c : Char) (delimiter : Delimiter) : Delimiter :=
  { delimiter with chars := c :: delimiter.chars }

def quote (quoting : Quoting) (delimiter : Delimiter) : Delimiter :=
  { delimiter with quotings := quoting :: delimiter.quotings }

def prepend (chars : Str) (delimiter : Delimiter) : Delimiter :=
  { delimiter with chars := chars ++ delimiter.chars }

/-- A part of the word is in quotes. -/
def inQuotes (delimiter : Delimiter) : Bool :=
  delimiter.quotings.contains .single || delimiter.quotings.contains .double

end Delimiter

/-- The quotes that the text is in. -/
inductive Quotes where
  | none
  | single
  | double

/-- The delimiter that the text starts with, unless it has an expansion. -/
def readDelimiter : Quotes → Str → Option Delimiter
  | _, [] => some .empty
  | .none, c :: rest =>
      if c = '\x00' ∨ c = '\n' ∨ c = ')' ∨ isOperatorStart c ∨ isBlank c then some .empty
      else if c = '$' ∨ c = '\x60' then none
      else if c = '\'' then (readDelimiter .single rest).map (.quote .single)
      else if c = '"' then (readDelimiter .double rest).map (.quote .double)
      else if c = '\\' then
        match rest with
        | [] => some .empty
        | next :: rest =>
            if next = '\n' then readDelimiter .none rest
            else (readDelimiter .none rest).map fun delimiter => (delimiter.cons next).quote .backslash
      else (readDelimiter .none rest).map (.cons c)
  | .single, c :: rest =>
      if c = '\'' then readDelimiter .none rest
      else (readDelimiter .single rest).map (.cons c)
  | .double, c :: rest =>
      if c = '"' then readDelimiter .none rest
      else if c = '$' ∨ c = '\x60' then none
      else if c = '\\' then
        match rest with
        | [] => some ⟨['\\'], []⟩
        | next :: rest =>
            if next = '\n' then readDelimiter .double rest
            else if next = '$' ∨ next = '\x60' ∨ next = '"' ∨ next = '\\' then
              (readDelimiter .double rest).map (.cons next)
            else (readDelimiter .double (next :: rest)).map (.cons '\\')
      else (readDelimiter .double rest).map (.cons c)

/-- `E'O'\F` before a blank. -/
example : readDelimiter .none ['E', '\'', 'O', '\'', '\\', 'F', ' ', 'x'] =
    some ⟨['E', 'O', 'F'], [.single, .backslash]⟩ := by
  decide

/-! What the text starts with decides how it is read. -/

section

variable {c : Char} {rest : Str}

theorem readDelimiter_end {text : Str} (ends : StopsWord text) : readDelimiter .none text = some .empty := by
  cases text with
  | nil => rfl
  | cons c rest =>
      rw [readDelimiter.eq_def]
      exact if_pos ends

theorem readDelimiter_expansion (expansion : c = '$' ∨ c = '\x60') : readDelimiter .none (c :: rest) = none := by
  rcases expansion with rfl | rfl <;> cases rest <;> rfl

theorem readDelimiter_single :
    readDelimiter .none ('\'' :: rest) = (readDelimiter .single rest).map (.quote .single) := by
  cases rest <;> rfl

theorem readDelimiter_double :
    readDelimiter .none ('"' :: rest) = (readDelimiter .double rest).map (.quote .double) := by
  cases rest <;> rfl

theorem readDelimiter_backslash (notNewline : c ≠ '\n') :
    readDelimiter .none ('\\' :: c :: rest) =
      (readDelimiter .none rest).map fun delimiter => (delimiter.cons c).quote .backslash :=
  if_neg notNewline

theorem readDelimiter_char (goesOn : ¬ StopsWord (c :: rest))
    (literal : c ≠ '$' ∧ c ≠ '\x60' ∧ c ≠ '\'' ∧ c ≠ '"' ∧ c ≠ '\\') :
    readDelimiter .none (c :: rest) = (readDelimiter .none rest).map (.cons c) := by
  rw [readDelimiter.eq_def]
  simp only [literal, or_self, if_false]
  exact if_neg goesOn

theorem readDelimiter_closed : readDelimiter .double ('"' :: rest) = readDelimiter .none rest := by
  cases rest <;> rfl

theorem readDelimiter_inner_expansion (expansion : c = '$' ∨ c = '\x60') :
    readDelimiter .double (c :: rest) = none := by
  rcases expansion with rfl | rfl <;> cases rest <;> rfl

theorem readDelimiter_inner_backslash (escaped : c = '$' ∨ c = '\x60' ∨ c = '"' ∨ c = '\\') :
    readDelimiter .double ('\\' :: c :: rest) = (readDelimiter .double rest).map (.cons c) := by
  rcases escaped with rfl | rfl | rfl | rfl <;> rfl

theorem readDelimiter_inner_char (literal : c ≠ '"' ∧ c ≠ '$' ∧ c ≠ '\x60')
    (kept : c = '\\' → charAt rest 0 ∉ ['\n', '$', '\x60', '"', '\\']) :
    readDelimiter .double (c :: rest) = (readDelimiter .double rest).map (.cons c) := by
  rw [readDelimiter.eq_def]
  simp only [literal, or_self, if_false]
  by_cases isBackslash : c = '\\'
  · rw [if_pos isBackslash, isBackslash]
    cases rest with
    | nil => rfl
    | cons next rest =>
        have ordinary := kept isBackslash
        simp [charAt] at ordinary
        simp [ordinary]
  · rw [if_neg isBackslash]

end

/-! ## The words of builders -/

theorem wordsStr_append (first second : List Word) :
    wordsStr (first ++ second) = (wordsStr first).bind fun str => (wordsStr second).map (str ++ ·) := by
  induction first with
  | nil => simp [wordsStr]
  | cons child first ih =>
      cases childStr : mrshWordStr child with
      | none => simp [wordsStr, childStr]
      | some str =>
          cases firstStr : wordsStr first <;> cases secondStr : wordsStr second <;>
            simp [wordsStr, childStr, firstStr, secondStr, ih]

theorem isChildQuoted_append (first second : List Word) :
    isChildQuoted (first ++ second) =
      (isChildQuoted first).bind fun quoted => if quoted then some true else isChildQuoted second := by
  induction first with
  | nil => simp [isChildQuoted]
  | cons child first ih =>
      cases childQuoted : isWordQuoted child with
      | none => simp [isChildQuoted, childQuoted]
      | some quoted => cases quoted <;> simp [isChildQuoted, childQuoted, ih]

theorem isChildQuoted_single (child : Word) : isChildQuoted [child] = isWordQuoted child := by
  cases childQuoted : isWordQuoted child with
  | none => simp [isChildQuoted, childQuoted]
  | some quoted => cases quoted <;> simp [isChildQuoted, childQuoted]

namespace WordBuilder

/-- What the children and the characters that are not in one yet stand for. -/
def str (builder : WordBuilder) : Option Str := (wordsStr builder.children).map (· ++ builder.buf)

def quoted (builder : WordBuilder) : Option Bool := isChildQuoted builder.children

variable (builder : WordBuilder) (pos : Position)

@[simp] theorem startAt_str : (builder.startAt pos).str = builder.str := by
  simp [str]

@[simp] theorem startAt_quoted : (builder.startAt pos).quoted = builder.quoted := by
  simp [quoted]

@[simp] theorem appendChar_str (c : Char) : (builder.appendChar c).str = builder.str.map (· ++ [c]) := by
  simp [str, appendChar, Function.comp_def]

@[simp] theorem appendChar_quoted (c : Char) : (builder.appendChar c).quoted = builder.quoted := rfl

/-- The characters in the buffer become an unquoted child. -/
@[simp] theorem push_str : (builder.push pos).str = builder.str := by
  obtain ⟨range, children⟩ := builder.push_children pos
  rw [str, str, push_buf, children, wordsStr_append]
  cases empty : builder.buf <;> cases wordsStr builder.children <;> simp [wordsStr, mrshWordStr]

@[simp] theorem push_quoted : (builder.push pos).quoted = builder.quoted := by
  obtain ⟨range, children⟩ := builder.push_children pos
  rw [quoted, quoted, children, isChildQuoted_append]
  cases isChildQuoted builder.children with
  | none => rfl
  | some quoted => cases empty : builder.buf <;> cases quoted <;> simp [isChildQuoted, isWordQuoted]

theorem add_str {builder : WordBuilder} (child : Word) (pushed : builder.buf = []) :
    (builder.add child).str = builder.str.bind fun str => (mrshWordStr child).map (str ++ ·) := by
  rw [str, str, add, wordsStr_append, pushed]
  cases wordsStr builder.children <;> cases childStr : mrshWordStr child <;> simp [wordsStr, childStr]

theorem add_quoted (child : Word) :
    (builder.add child).quoted =
      builder.quoted.bind fun quoted => if quoted then some true else isWordQuoted child := by
  rw [quoted, quoted, add, isChildQuoted_append, isChildQuoted_single]

theorem word_str {builder : WordBuilder} (pushed : builder.buf = []) : mrshWordStr builder.word = builder.str := by
  rw [str, pushed, word]
  split
  · rename_i child only
    simp [only, wordsStr]
  · simp [mrshWordListCreate, mrshWordStr]

theorem word_quoted : isWordQuoted builder.word = builder.quoted := by
  rw [quoted, word]
  split
  · rename_i child only
    rw [only, isChildQuoted_single]
  · simp [mrshWordListCreate, isWordQuoted]

end WordBuilder

/-! ## The word that is parsed -/

variable {self : Productions} {parser after : Parser}

theorem parserReadChar_first {c : Char} (read : parserReadChar parser = .done c after) :
    c = charAt parser.buf 0 ∧ parser.buf = charAt parser.buf 0 :: after.buf := by
  have buf := parserReadChar_buf read
  have peeked : charAt parser.buf 0 = c := by rw [buf]; rfl
  exact ⟨peeked.symm, by rw [peeked, ← buf]⟩

theorem parserReadChar_is {c d : Char} (read : parserReadChar parser = .done c after)
    (first : (charAt parser.buf 0 == d) = true) : parser.buf = d :: after.buf := by
  rw [← eq_of_beq first]
  exact (parserReadChar_first read).2

theorem starts_of_peeked {text : Str} {c : Char} (first : (charAt text 0 == c) = true) (visible : c ≠ '\x00') :
    ∃ rest, text = c :: rest := by
  cases text with
  | nil => exact absurd (eq_of_beq first).symm visible
  | cons d rest => exact ⟨rest, by rw [← eq_of_beq first]; rfl⟩

theorem readContinuationLine_buf (read : readContinuationLine parser = .done () after) :
    parser.buf = '\n' :: after.buf := by
  obtain ⟨c, between, first, read⟩ := Run.bind_done.mp read
  obtain ⟨_, _, checked, read⟩ := Run.bind_done.mp read
  by_cases newline : c = '\n'
  · subst newline
    cases checked
    have starts := parserReadChar_buf first
    cases read
    exact starts
  · simp [assert, newline] at checked

theorem nestedWord_done {builder : WordBuilder} {child : Parse (Option Word)}
    {next : WordBuilder → Parse (Option Word)} {word : Word}
    (read : nestedWord builder child next parser = .done (some word) after) :
    ∃ pos found between, child parser = .done (some found) between ∧
      next ((builder.push pos).add found) between = .done (some word) after := by
  obtain ⟨pos, _, start, read⟩ := Run.bind_done.mp read
  cases start
  obtain ⟨found, between, nested, read⟩ := Run.bind_done.mp read
  cases found with
  | none => cases read
  | some found => exact ⟨_, found, between, nested, read⟩

theorem singleQuotesLoop_delimiter (begin : Position) (fuel : Nat) {buf : Str} {child : Word}
    (read : singleQuotesLoop begin fuel buf parser = .done (some child) after) :
    ∃ chars range, child = .string (buf ++ chars) true false range ∧
      readDelimiter .single parser.buf = (readDelimiter .none after.buf).map (.prepend chars) := by
  induction fuel generalizing buf parser with
  | zero => cases read
  | succ fuel ih =>
      rw [singleQuotesLoop] at read
      obtain ⟨c, _, peeked, read⟩ := Run.bind_done.mp read
      cases peeked
      split at read
      · obtain ⟨_, _, _, read⟩ := Run.bind_done.mp read
        cases read
      split at read
      · rename_i isQuote
        obtain ⟨_, between, first, read⟩ := Run.bind_done.mp read
        cases read
        obtain ⟨_, starts⟩ := parserReadChar_first first
        refine ⟨[], _, by rw [List.append_nil], ?_⟩
        rw [starts, readDelimiter, if_pos (by simpa using isQuote)]
        cases readDelimiter .none after.buf <;> rfl
      · rename_i notQuote
        -- The character becomes part of the string, also where it ends a line.
        have kept : ∃ between, parser.buf = charAt parser.buf 0 :: between.buf ∧
            singleQuotesLoop begin fuel (buf ++ [charAt parser.buf 0]) between = .done (some child) after := by
          split at read
          · rename_i newline
            obtain ⟨_, between, continued, read⟩ := Run.bind_done.mp read
            have starts := readContinuationLine_buf continued
            exact ⟨between, by rw [starts]; rfl, read⟩
          · obtain ⟨_, between, first, read⟩ := Run.bind_done.mp read
            exact ⟨between, (parserReadChar_first first).2, read⟩
        obtain ⟨between, starts, read⟩ := kept
        obtain ⟨chars, range, shape, rest⟩ := ih read
        refine ⟨charAt parser.buf 0 :: chars, range, by rw [shape, List.append_assoc]; rfl, ?_⟩
        rw [starts, readDelimiter, if_neg (by simpa using notQuote), rest]
        cases readDelimiter .none after.buf <;> rfl

theorem singleQuotes_delimiter {child : Word} (read : singleQuotes parser = .done (some child) after) :
    ∃ chars range, child = .string chars true false range ∧
      readDelimiter .none parser.buf =
        (readDelimiter .none after.buf).map fun rest => (rest.prepend chars).quote .single := by
  obtain ⟨begin, _, start, read⟩ := Run.bind_done.mp read
  cases start
  obtain ⟨c, opened, first, read⟩ := Run.bind_done.mp read
  obtain ⟨_, _, checked, read⟩ := Run.bind_done.mp read
  obtain ⟨fuel, _, bounded, read⟩ := Run.bind_done.mp read
  cases bounded
  by_cases isQuote : c = '\''
  · subst isQuote
    cases checked
    obtain ⟨chars, range, shape, text⟩ := singleQuotesLoop_delimiter _ _ read
    refine ⟨chars, range, shape, ?_⟩
    rw [parserReadChar_buf first, readDelimiter_single, text, Option.map_map]
    rfl
  · simp [assert, isQuote] at checked

/-- The child for double quotes, which has no text if there is an expansion in them. -/
def ClosesQuotes (builder : WordBuilder) (text rest : Str) (child : Word) : Prop :=
  isWordQuoted child = some true ∧ ∃ chars : Option Str,
    mrshWordStr child = builder.str.bind (fun str => chars.map (str ++ ·)) ∧
    readDelimiter .double text = chars.bind fun chars => (readDelimiter .none rest).map (.prepend chars)

namespace ClosesQuotes

variable {builder : WordBuilder} {text left rest : Str} {child : Word}

theorem appendChar {c : Char} (closes : ClosesQuotes (builder.appendChar c) left rest child)
    (starts : readDelimiter .double text = (readDelimiter .double left).map (.cons c)) :
    ClosesQuotes builder text rest child := by
  obtain ⟨isQuoted, chars, str, read⟩ := closes
  refine ⟨isQuoted, chars.map (c :: ·), ?_, ?_⟩
  · rw [str, WordBuilder.appendChar_str]
    cases builder.str <;> cases chars <;> simp
  · rw [starts, read]
    cases chars <;> cases readDelimiter .none rest <;> rfl

theorem addExpansion {found : Word} {pos : Position} (expansion : isExpansion found = true)
    (closes : ClosesQuotes ((builder.push pos).add found) left rest child)
    (starts : readDelimiter .double text = none) : ClosesQuotes builder text rest child := by
  obtain ⟨isQuoted, _, str, _⟩ := closes
  refine ⟨isQuoted, none, ?_, starts⟩
  rw [str, WordBuilder.add_str found (WordBuilder.push_buf _ _), mrshWordStr_expansion expansion]
  cases builder.str <;> simp

theorem startAt {pos : Position} (closes : ClosesQuotes (builder.startAt pos) text rest child) :
    ClosesQuotes builder text rest child := by
  rwa [ClosesQuotes, WordBuilder.startAt_str] at closes

end ClosesQuotes

theorem doubleQuotesLoop_closes (lquotePos : Position) (fuel : Nat) {builder : WordBuilder} {child : Word}
    (read : doubleQuotesLoop self lquotePos fuel builder parser = .done (some child) after) :
    ClosesQuotes builder parser.buf after.buf child := by
  induction fuel generalizing builder parser with
  | zero => cases read
  | succ fuel ih =>
      rw [doubleQuotesLoop, getPos, Run.gets_bind, parserPeekChar, parserPeekAt, Run.gets_bind] at read
      refine @ClosesQuotes.startAt builder _ _ _ parser.pos ?_
      generalize builder.startAt parser.pos = builder at read ⊢
      split at read
      · obtain ⟨_, _, _, read⟩ := Run.bind_done.mp read
        cases read
      split at read
      · rename_i isQuote
        obtain ⟨_, between, first, read⟩ := Run.bind_done.mp read
        cases read
        refine ⟨rfl, some [], ?_, ?_⟩
        · rw [mrshWordStr, ← (builder.push_str parser.pos), WordBuilder.str, WordBuilder.push_buf]
          cases wordsStr (builder.push parser.pos).children <;> simp
        · rw [parserReadChar_is first isQuote, readDelimiter_closed]
          cases readDelimiter .none after.buf <;> rfl
      rename_i notQuote
      split at read
      · rename_i isDollar
        obtain ⟨_, found, between, nested, read⟩ := nestedWord_done read
        refine (ih read).addExpansion (expectDollar_expansion _ _ _ nested found rfl) ?_
        obtain ⟨rest, starts⟩ := starts_of_peeked isDollar (by decide)
        rw [starts]
        exact readDelimiter_inner_expansion (.inl rfl)
      rename_i notDollar
      split at read
      · rename_i isBackQuote
        obtain ⟨_, found, between, nested, read⟩ := nestedWord_done read
        refine (ih read).addExpansion (backQuotes_expansion _ _ _ nested found rfl) ?_
        obtain ⟨rest, starts⟩ := starts_of_peeked isBackQuote (by decide)
        rw [starts]
        exact readDelimiter_inner_expansion (.inr rfl)
      rename_i notBackQuote
      rw [parserPeekAt, Run.gets_bind] at read
      split at read
      · rename_i continued
        rw [Bool.and_eq_true] at continued
        obtain ⟨_, between, first, read⟩ := Run.bind_done.mp read
        obtain ⟨_, last, newline, read⟩ := Run.bind_done.mp read
        have closes := ih read
        rw [ClosesQuotes] at closes ⊢
        rwa [parserReadChar_is first continued.1, readContinuationLine_buf newline]
      rename_i notContinued
      dsimp only at read
      generalize isEscaped :
        (charAt parser.buf 0 == '\\' && (charAt parser.buf 1 == '$' || charAt parser.buf 1 == '\x60' ||
        charAt parser.buf 1 == '"' || charAt parser.buf 1 == '\\')) = escaped at read
      cases escaped with
      | true =>
          rw [Bool.and_eq_true] at isEscaped
          obtain ⟨_, between, first, read⟩ := Run.bind_done.mp read
          obtain ⟨_, last, second, read⟩ := Run.bind_done.mp read
          have starts := parserReadChar_is first isEscaped.1
          obtain ⟨_, next⟩ := parserReadChar_first second
          have sameNext : charAt parser.buf 1 = charAt between.buf 0 := by rw [starts]; rfl
          refine (ih read).appendChar ?_
          rw [if_pos rfl, starts, next, ← sameNext]
          exact readDelimiter_inner_backslash (by simpa [or_assoc] using isEscaped.2)
      | false =>
          obtain ⟨_, between, first, read⟩ := Run.bind_done.mp read
          obtain ⟨_, starts⟩ := parserReadChar_first first
          have sameNext : charAt parser.buf 1 = charAt between.buf 0 := by rw [starts]; rfl
          refine (ih read).appendChar ?_
          rw [if_neg (by decide), starts]
          refine readDelimiter_inner_char ⟨by simpa using notQuote, by simpa using notDollar,
            by simpa using notBackQuote⟩ ?_
          intro isBackslash
          rw [isBackslash, sameNext] at notContinued isEscaped
          have notNewline : charAt between.buf 0 ≠ '\n' := by simpa using notContinued
          simpa [notNewline, and_assoc] using isEscaped

theorem doubleQuotes_delimiter {child : Word} (read : doubleQuotes self parser = .done (some child) after) :
    isWordQuoted child = some true ∧
      readDelimiter .none parser.buf = (mrshWordStr child).bind fun chars =>
        (readDelimiter .none after.buf).map fun rest => (rest.prepend chars).quote .double := by
  obtain ⟨lquotePos, _, start, read⟩ := Run.bind_done.mp read
  cases start
  obtain ⟨c, opened, first, read⟩ := Run.bind_done.mp read
  obtain ⟨_, _, checked, read⟩ := Run.bind_done.mp read
  obtain ⟨fuel, _, bounded, read⟩ := Run.bind_done.mp read
  cases bounded
  by_cases isQuote : c = '"'
  · subst isQuote
    cases checked
    obtain ⟨isQuoted, chars, str, text⟩ := doubleQuotesLoop_closes _ _ read
    refine ⟨isQuoted, ?_⟩
    have sameStr : mrshWordStr child = chars := by
      rw [str]
      cases chars <;> rfl
    rw [parserReadChar_buf first, readDelimiter_double, text, sameStr]
    cases chars <;> cases readDelimiter .none after.buf <;> rfl
  · simp [assert, isQuote] at checked

/-- The word stands for what the builder holds and the delimiter that the text goes on with. -/
def StandsFor (builder : WordBuilder) (text : Str) (name : Word) : Prop :=
  mrshWordStr name = builder.str.bind (fun str => (readDelimiter .none text).map (str ++ ·.chars)) ∧
  ∀ delimiter ∈ readDelimiter .none text, isWordQuoted name = builder.quoted.map (· || delimiter.inQuotes)

namespace StandsFor

variable {builder : WordBuilder} {text left : Str} {name : Word} {pos : Position}

theorem startAt (stands : StandsFor (builder.startAt pos) text name) : StandsFor builder text name := by
  rwa [StandsFor, WordBuilder.startAt_str, WordBuilder.startAt_quoted] at stands

/-- A character with or without a backslash, which leaves no trace in the word. -/
theorem appendChar {c : Char} (change : Delimiter → Delimiter)
    (chars : ∀ delimiter, (change delimiter).chars = c :: delimiter.chars)
    (inQuotes : ∀ delimiter, (change delimiter).inQuotes = delimiter.inQuotes)
    (stands : StandsFor (builder.appendChar c) left name)
    (starts : readDelimiter .none text = (readDelimiter .none left).map change) : StandsFor builder text name := by
  obtain ⟨str, quoted⟩ := stands
  refine ⟨?_, fun delimiter member => ?_⟩
  · rw [str, starts, WordBuilder.appendChar_str]
    cases builder.str <;> cases readDelimiter .none left <;> simp [chars]
  · rw [starts] at member
    obtain ⟨before, found, rfl⟩ := Option.map_eq_some_iff.mp member
    rw [quoted before found, WordBuilder.appendChar_quoted, inQuotes]

theorem addExpansion {found : Word} (expansion : isExpansion found = true)
    (stands : StandsFor ((builder.push pos).add found) left name)
    (starts : readDelimiter .none text = none) : StandsFor builder text name := by
  obtain ⟨str, _⟩ := stands
  refine ⟨?_, fun delimiter member => ?_⟩
  · rw [str, starts, WordBuilder.add_str found (WordBuilder.push_buf _ _), mrshWordStr_expansion expansion]
    cases builder.str <;> simp
  · rw [starts] at member
    cases member

/-- Quotes with the given characters, unless there is an expansion in them. -/
theorem addQuotes {found : Word} {quoting : Quoting} {chars : Option Str}
    (isQuotes : quoting = .single ∨ quoting = .double) (isQuoted : isWordQuoted found = some true)
    (foundStr : mrshWordStr found = chars) (stands : StandsFor ((builder.push pos).add found) left name)
    (starts : readDelimiter .none text =
      chars.bind fun chars => (readDelimiter .none left).map fun rest => (rest.prepend chars).quote quoting) :
    StandsFor builder text name := by
  obtain ⟨str, quoted⟩ := stands
  refine ⟨?_, fun delimiter member => ?_⟩
  · rw [str, starts, WordBuilder.add_str found (WordBuilder.push_buf _ _), foundStr, WordBuilder.push_str]
    cases builder.str <;> cases chars <;> cases readDelimiter .none left <;>
      simp [Delimiter.prepend, Delimiter.quote]
  · rw [starts] at member
    obtain ⟨chars, _, member⟩ := Option.bind_eq_some_iff.mp member
    obtain ⟨rest, found, rfl⟩ := Option.map_eq_some_iff.mp member
    have marked : ((rest.prepend chars).quote quoting).inQuotes = true := by
      rcases isQuotes with rfl | rfl <;> simp [Delimiter.inQuotes, Delimiter.quote]
    rw [quoted rest found, WordBuilder.add_quoted, WordBuilder.push_quoted, isQuoted, marked]
    cases builder.quoted with
    | none => rfl
    | some before => cases before <;> rfl

theorem finish (ends : readDelimiter .none text = some .empty) : StandsFor builder text (builder.push pos).word := by
  refine ⟨?_, fun delimiter member => ?_⟩
  · rw [WordBuilder.word_str (WordBuilder.push_buf _ _), WordBuilder.push_str, ends]
    cases builder.str <;> simp [Delimiter.empty]
  · rw [ends] at member
    cases member
    rw [WordBuilder.word_quoted, WordBuilder.push_quoted]
    cases builder.quoted <;> simp [Delimiter.inQuotes, Delimiter.empty]

end StandsFor

theorem wordLoop_standsFor (fuel : Nat) {builder : WordBuilder} {name : Word}
    (read : wordLoop self '\x00' fuel builder parser = .done (some name) after) :
    StandsFor builder parser.buf name := by
  induction fuel generalizing builder parser with
  | zero => cases read
  | succ fuel ih =>
      rw [wordLoop, getPos, Run.gets_bind, parserPeekChar, parserPeekAt, Run.gets_bind] at read
      refine @StandsFor.startAt builder _ _ parser.pos ?_
      generalize builder.startAt parser.pos = builder at read ⊢
      split at read
      · rename_i ends
        cases read
        refine .finish (readDelimiter_end ?_)
        simp only [Bool.or_eq_true, beq_iff_eq] at ends
        simp only [StopsWord]
        grind
      rename_i visible
      split at read
      · rename_i isDollar
        obtain ⟨_, found, between, nested, read⟩ := nestedWord_done read
        refine (ih read).addExpansion (expectDollar_expansion _ _ _ nested found rfl) ?_
        obtain ⟨rest, starts⟩ := starts_of_peeked isDollar (by decide)
        rw [starts]
        exact readDelimiter_expansion (.inl rfl)
      rename_i notDollar
      split at read
      · rename_i isBackQuote
        obtain ⟨_, found, between, nested, read⟩ := nestedWord_done read
        refine (ih read).addExpansion (backQuotes_expansion _ _ _ nested found rfl) ?_
        obtain ⟨rest, starts⟩ := starts_of_peeked isBackQuote (by decide)
        rw [starts]
        exact readDelimiter_expansion (.inr rfl)
      rename_i notBackQuote
      split at read
      · rename_i isQuote
        obtain ⟨_, found, between, nested, read⟩ := nestedWord_done read
        obtain ⟨chars, range, rfl, text⟩ := singleQuotes_delimiter nested
        exact (ih read).addQuotes (.inl rfl) rfl rfl text
      rename_i notQuote
      split at read
      · rename_i isDoubleQuote
        obtain ⟨_, found, between, nested, read⟩ := nestedWord_done read
        obtain ⟨isQuoted, text⟩ := doubleQuotes_delimiter nested
        exact (ih read).addQuotes (.inr rfl) isQuoted rfl text
      rename_i notDoubleQuote
      split at read
      · rename_i isBackslash
        obtain ⟨_, between, first, read⟩ := Run.bind_done.mp read
        have starts := parserReadChar_is first isBackslash
        change (parserPeekChar >>= _) between = _ at read
        rw [parserPeekChar, parserPeekAt, Run.gets_bind] at read
        split at read
        · obtain ⟨_, last, newline, read⟩ := Run.bind_done.mp read
          have stands := ih read
          rw [StandsFor] at stands ⊢
          rwa [starts, readContinuationLine_buf newline]
        · rename_i notNewline
          obtain ⟨_, last, second, read⟩ := Run.bind_done.mp read
          refine (ih read).appendChar (fun delimiter => (delimiter.cons (charAt between.buf 0)).quote .backslash)
            (fun _ => rfl) (fun _ => ?_) ?_
          · simp [Delimiter.inQuotes, Delimiter.quote, Delimiter.cons]
          · rw [starts, (parserReadChar_first second).2]
            exact readDelimiter_backslash (by simpa using notNewline)
      rename_i notBackslash
      split at read
      · rename_i ends
        cases read
        exact .finish (readDelimiter_end (by simp only [StopsWord]; grind))
      · rename_i goesOn
        obtain ⟨_, between, first, read⟩ := Run.bind_done.mp read
        refine (ih read).appendChar (.cons (charAt parser.buf 0)) (fun _ => rfl) (fun _ => rfl) ?_
        rw [(parserReadChar_first first).2]
        have literal : charAt parser.buf 0 ≠ '$' ∧ charAt parser.buf 0 ≠ '\x60' ∧ charAt parser.buf 0 ≠ '\'' ∧
            charAt parser.buf 0 ≠ '"' ∧ charAt parser.buf 0 ≠ '\\' := by
          simp only [beq_iff_eq] at notDollar notBackQuote notQuote notDoubleQuote notBackslash
          exact ⟨notDollar, notBackQuote, notQuote, notDoubleQuote, notBackslash⟩
        refine readDelimiter_char ?_ literal
        have same : charAt (charAt parser.buf 0 :: between.buf) 0 = charAt parser.buf 0 := rfl
        simp only [Bool.or_eq_true, beq_iff_eq] at visible goesOn
        simp only [StopsWord, same]
        grind

theorem word_delimiter {name : Word} (read : word self '\x00' parser = .done (some name) after) :
    ∃ found, symbol .token parser = .done true found ∧
      mrshWordStr name = (readDelimiter .none found.buf).map Delimiter.chars ∧
      ∀ delimiter ∈ readDelimiter .none found.buf, isWordQuoted name = some delimiter.inQuotes := by
  obtain ⟨isToken, found, start, read⟩ := Run.bind_done.mp read
  cases isToken with
  | false => cases read
  | true =>
      rw [if_pos rfl] at read
      obtain ⟨c, _, peeked, read⟩ := Run.bind_done.mp read
      cases peeked
      split at read
      · cases read
      obtain ⟨fuel, _, bounded, read⟩ := Run.bind_done.mp read
      cases bounded
      obtain ⟨str, quoted⟩ := wordLoop_standsFor _ read
      refine ⟨found, start, str, fun delimiter member => ?_⟩
      rw [quoted delimiter member]
      rfl

/-! ## The document -/

/-- The lines up to the delimiter are read as one document. -/
def readDocument (self : Productions) (redir : IoRedirect) (expandLines : Bool) (delim : Str) : Parse Bool := do
  Run.modify fun parser => { parser with continuationLine := true }
  let fuel ← bufferFuel
  if ← hereDocumentLines self redir expandLines delim fuel then
    consumeSymbol
    pure true
  else pure false

/-- The document of the redirection ends at the delimiter, and its lines are expanded unless a part of the delimiter
is quoted. -/
def ReadsDocument (self : Productions) (redir : IoRedirect) (delimiter : Option Delimiter) : Prop :=
  ∃ expandLines delim, (∀ read ∈ delimiter, expandLines = read.quotings.isEmpty ∧ delim = read.chars) ∧
    ∀ parser, expectHereDocuments self (pure true) [redir] parser = readDocument self redir expandLines delim parser

theorem expectHereDocuments_name {redir : IoRedirect} {delim : Str} {quoted : Bool}
    (str : mrshWordStr redir.name = some delim) (isQuoted : isWordQuoted redir.name = some quoted) (parser : Parser) :
    expectHereDocuments self (pure true) [redir] parser = readDocument self redir (!quoted) delim parser := by
  have lines : expectHereDocument self redir delim = readDocument self redir (!quoted) delim := by
    rw [expectHereDocument, isQuoted]
    rfl
  have reads : expectHereDocuments self (pure true) [redir] parser =
      (expectHereDocument self redir delim parser).andThen fun accepted =>
        (if accepted then pure true else pure false : Parse Bool) := by
    rw [expectHereDocuments, str]
    rfl
  rw [reads, lines]
  cases readDocument self redir (!quoted) delim parser with
  | done accepted after => cases accepted <;> rfl
  | stopped reason after => rfl

theorem hereDocumentLines_end (redir : IoRedirect) (expandLines : Bool) (delim : Str) (fuel : Nat)
    (ended : parser.buf = []) :
    ∃ accepted after, hereDocumentLines self redir expandLines delim (fuel + 1) parser = .done accepted after ∧
      after.bodies = parser.bodies := by
  obtain ⟨pos, continuationLine, step⟩ := @hereDocumentLines_step [] parser self redir expandLines delim []
    (by simp [LineText]) (.inr rfl) fuel (by simpa using ended)
  rw [step]
  split
  · exact ⟨true, _, rfl, rfl⟩
  · refine ⟨false, _, rfl, ?_⟩
    cases error : parser.error <;> simp [Parser.moved, error]

theorem hereDocumentLines_char (redir : IoRedirect) (expandLines : Bool) (delim : Str) (fuel : Nat) {c : Char}
    (literal : c ≠ '\x00' ∧ c ≠ '\n' ∧ c ≠ '\t' ∧ c ≠ '$' ∧ c ≠ '\x60' ∧ c ≠ '\\') (different : [c] ≠ delim)
    (buf : parser.buf = [c, '\n']) :
    ∃ accepted after, hereDocumentLines self redir expandLines delim (fuel + 2) parser = .done accepted after ∧
      after.bodies =
        parser.bodies ++ [(redir.addr, if expandLines then literalLine [c] else mrshWordStringCreate [c] true)] := by
  obtain ⟨visible, notNewline, notTab, notDollar, notBackQuote, notBackslash⟩ := literal
  obtain ⟨pos, continuationLine, step⟩ := @hereDocumentLines_step ['\n'] parser self redir expandLines delim [c]
    (by simp [LineText, notNewline, visible]) (.inl rfl) (fuel + 1) buf
  have stored : storedLine redir [c] = [c] := by simp [storedLine, notTab]
  have read : readContinuationLine (parser.moved ['\n'] pos continuationLine) =
      .done () (parser.moved [] (pos.advance '\n') true) := rfl
  rw [stored, if_neg (by simpa using different), if_neg (by decide), Run.bind_of_done read] at step
  rw [step]
  cases expandLines with
  | false =>
      exact @hereDocumentLines_end self { parser.moved [] (pos.advance '\n') true with
        bodies := parser.bodies ++ [(redir.addr, mrshWordStringCreate [c] true)] } redir false delim fuel rfl
  | true =>
      have line := @hereDocumentLine_literal self [c] (by simp [visible, notDollar, notBackQuote, notBackslash])
        (parser.moved [] (pos.advance '\n') true)
      rw [if_pos rfl, Run.bind_of_done line]
      exact @hereDocumentLines_end self { parser.moved [] (pos.advance '\n') true with
        bodies := parser.bodies ++ [(redir.addr, literalLine [c])] } redir true delim fuel rfl

theorem readDocument_lines (redir : IoRedirect) (expandLines : Bool) (delim : Str) (parser : Parser) :
    readDocument self redir expandLines delim parser =
      (hereDocumentLines self redir expandLines delim (parser.buf.length + 1)
        { parser with continuationLine := true }).andThen fun accepted after =>
          .done accepted (if accepted then { after with hasSym := false } else after) := by
  change Outcome.andThen _ _ = _
  congr
  funext accepted after
  cases accepted <;> rfl

theorem readDocument_bodies (redir : IoRedirect) (expandLines : Bool) (delim : Str) {c : Char}
    (literal : c ≠ '\x00' ∧ c ≠ '\n' ∧ c ≠ '\t' ∧ c ≠ '$' ∧ c ≠ '\x60' ∧ c ≠ '\\') (different : [c] ≠ delim) :
    (readDocument self redir expandLines delim (mrshParserWithData [c, '\n'])).state.bodies =
      [(redir.addr, if expandLines then literalLine [c] else mrshWordStringCreate [c] true)] := by
  obtain ⟨accepted, after, lines, bodies⟩ := @hereDocumentLines_char self
    { mrshParserWithData [c, '\n'] with continuationLine := true } redir expandLines delim 1 c literal different rfl
  have run := (readDocument_lines redir expandLines delim (mrshParserWithData [c, '\n'])).trans
    (congrArg (Outcome.andThen · _) lines)
  rw [run]
  cases accepted <;> exact bodies

theorem readDocument_expandLines {redir : IoRedirect} {first second : Bool} {delim : Str}
    (same : ∀ parser, readDocument self redir first delim parser = readDocument self redir second delim parser) :
    first = second := by
  obtain ⟨c, literal, different⟩ : ∃ c : Char,
      (c ≠ '\x00' ∧ c ≠ '\n' ∧ c ≠ '\t' ∧ c ≠ '$' ∧ c ≠ '\x60' ∧ c ≠ '\\') ∧ [c] ≠ delim := by
    by_cases isDelim : delim = ['x']
    · exact ⟨'y', by decide, by rw [isDelim]; decide⟩
    · exact ⟨'x', by decide, Ne.symm isDelim⟩
  have firstBodies := @readDocument_bodies self redir first delim c literal different
  rw [same, readDocument_bodies redir second delim literal different] at firstBodies
  cases first <;> cases second <;> simp_all [literalLine, mrshWordStringCreate]

theorem expectHereDocuments_aborts {redir : IoRedirect} (noStr : mrshWordStr redir.name = none) (parser : Parser) :
    expectHereDocuments self (pure true) [redir] parser = .stopped .aborted parser := by
  rw [expectHereDocuments, noStr]
  rfl

theorem readDocument_empty (redir : IoRedirect) (expandLines : Bool) (delim : Str) (reason : Stop) (after : Parser) :
    readDocument self redir expandLines delim (mrshParserWithData []) ≠ .stopped reason after := by
  obtain ⟨accepted, ended, lines, _⟩ := @hereDocumentLines_end self
    { mrshParserWithData [] with continuationLine := true } redir expandLines delim 0 rfl
  have run := (readDocument_lines redir expandLines delim (mrshParserWithData [])).trans
    (congrArg (Outcome.andThen · _) lines)
  rw [run]
  simp

theorem Delimiter.isEmpty_quotings (delimiter : Delimiter) :
    delimiter.quotings.isEmpty = !delimiter.inQuotes ↔
      (.backslash ∈ delimiter.quotings → .single ∈ delimiter.quotings ∨ .double ∈ delimiter.quotings) := by
  obtain ⟨chars, quotings⟩ := delimiter
  by_cases single : Quoting.single ∈ quotings
  · have notEmpty : quotings ≠ [] := List.ne_nil_of_mem single
    simp [inQuotes, single, notEmpty]
  by_cases double : Quoting.double ∈ quotings
  · have notEmpty : quotings ≠ [] := List.ne_nil_of_mem double
    simp [inQuotes, double, notEmpty]
  · simp only [inQuotes, single, double, List.contains_eq_mem, decide_false, Bool.or_self, Bool.not_false, or_self,
      imp_false, List.isEmpty_iff]
    constructor
    · rintro rfl
      exact List.not_mem_nil
    · intro backslash
      refine List.eq_nil_iff_forall_not_mem.mpr fun quoting member => ?_
      cases quoting with
      | backslash => exact backslash member
      | single => exact single member
      | double => exact double member

/-- The document of an accepted delimiter is read as its text says if and only if the delimiter has no expansion, and
quotes if it has a backslash. -/
theorem delimiter_reads_iff {reader : Productions} {op : IoRedirectOp} {range : Range} {name : Word}
    (read : ioHere self parser = .done (some (op, range, name)) after) :
    ∃ opened found, ioHereOp parser = .done (some (op, range)) opened ∧ symbol .token opened = .done true found ∧
      ∀ redir, redir.name = name →
        (ReadsDocument reader redir (readDelimiter .none found.buf) ↔
          ∃ delimiter, readDelimiter .none found.buf = some delimiter ∧
            (.backslash ∈ delimiter.quotings → .single ∈ delimiter.quotings ∨ .double ∈ delimiter.quotings)) := by
  obtain ⟨operation, opened, operator, read⟩ := Run.bind_done.mp read
  match operation with
  | none => cases read
  | some (op, range) =>
      obtain ⟨accepted, between, word, read⟩ := Run.bind_done.mp read
      match accepted with
      | none =>
          obtain ⟨_, _, _, read⟩ := Run.bind_done.mp read
          cases read
      | some name =>
          cases read
          obtain ⟨found, token, str, quoted⟩ := word_delimiter word
          refine ⟨opened, found, operator, token, ?_⟩
          rintro redir rfl
          cases delimiterIs : readDelimiter .none found.buf with
          | none =>
              rw [delimiterIs] at str
              refine ⟨?_, fun ⟨_, impossible, _⟩ => by cases impossible⟩
              rintro ⟨expandLines, delim, _, same⟩
              have aborted := @expectHereDocuments_aborts reader redir str (mrshParserWithData [])
              rw [same] at aborted
              exact absurd aborted (readDocument_empty redir expandLines delim _ _)
          | some delimiter =>
              rw [delimiterIs] at str
              have run : ∀ parser, expectHereDocuments reader (pure true) [redir] parser =
                  readDocument reader redir (!delimiter.inQuotes) delimiter.chars parser :=
                expectHereDocuments_name str (quoted delimiter delimiterIs)
              constructor
              · rintro ⟨expandLines, delim, asText, same⟩
                obtain ⟨rfl, rfl⟩ := asText delimiter rfl
                have expands := readDocument_expandLines fun parser => (same parser).symm.trans (run parser)
                exact ⟨delimiter, rfl, delimiter.isEmpty_quotings.mp expands⟩
              · rintro ⟨_, isDelimiter, quotes⟩
                cases isDelimiter
                refine ⟨_, _, fun _ member => by cases member; exact ⟨rfl, rfl⟩, ?_⟩
                rw [delimiter.isEmpty_quotings.mpr quotes]
                exact run

/-- The document of `<<'E'`. -/
theorem delimiter_reads_quoted :
    ReadsDocument (productions 1)
      { addr := .parsed 0, ioNumber := -1, op := .dless, name := .string ['E'] true false ⟨⟨2, 1, 3⟩, ⟨5, 1, 6⟩⟩,
        hereDocument := [], ioNumberPos := .invalid, opRange := ⟨⟨0, 1, 1⟩, ⟨2, 1, 3⟩⟩ }
      (some ⟨['E'], [.single]⟩) := by
  obtain ⟨after, read⟩ : ∃ after, ioHere (productions 1) (mrshParserWithData ['<', '<', '\'', 'E', '\'', '\n']) =
      .done (some (.dless, ⟨⟨0, 1, 1⟩, ⟨2, 1, 3⟩⟩, .string ['E'] true false ⟨⟨2, 1, 3⟩, ⟨5, 1, 6⟩⟩)) after := ⟨_, rfl⟩
  obtain ⟨opened, found, operator, token, reads⟩ := @delimiter_reads_iff _ _ _ (productions 1) _ _ _ read
  have text : readDelimiter .none found.buf = some ⟨['E'], [.single]⟩ := by
    cases operator
    cases token
    rfl
  rw [← text]
  exact (reads _ rfl).mpr ⟨_, text, by decide⟩

/-- A backslash in the delimiter does not keep the lines from being expanded, and a delimiter with an expansion is no
text. -/
theorem delimiter_misread :
    let escaped := mrshParseProgram 10 (mrshParserWithData "cat <<\\E\n$x\nE\n".toList)
    let expansion := mrshParseProgram 10 (mrshParserWithData "cat <<$x\n$x\n".toList)
    readDelimiter .none "\\E\n".toList = some ⟨['E'], [.backslash]⟩ ∧
      escaped.value?.map (·.isSome) = some true ∧ escaped.state.error = none ∧
      escaped.state.bodies.map (fun entry => isExpansion entry.2) = [true] ∧
      (match expansion with
        | .stopped .aborted _ => true
        | _ => false) = true := by
  decide +kernel

end Mrsh
