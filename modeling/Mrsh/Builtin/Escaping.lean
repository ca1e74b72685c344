import Mrsh.Builtin.Getopt
import Mrsh.Parser.Segments

namespace Mrsh

open Mrsh.Data

/-! # Reading escaped text back

The text that `print_escaped` prints is one word for the parser, and the string
of that word is the value that was printed.
-/

def WordPiece.str : WordPiece → Option Str
  | .char c => some [c]
  | .single chars => some chars
  | .quote => some []
  | .parameter _ _ _ => none
  | .child _ => none

/-- The string of a word that has these pieces. -/
def piecesStr : List WordPiece → Option Str
  | [] => some []
  | piece :: pieces => do
      let str ← piece.str
      let rest ← piecesStr pieces
      pure (str ++ rest)

theorem piecesStr_append (first second : List WordPiece) :
    piecesStr (first ++ second) =
      (do
        let str ← piecesStr first
        let rest ← piecesStr second
        pure (str ++ rest)) := by
  induction first with
  | nil => cases found : piecesStr second <;> simp [piecesStr, found]
  | cons piece first ih =>
      rw [List.cons_append, piecesStr, piecesStr, ih]
      cases piece.str with
      | none => rfl
      | some str =>
          cases piecesStr first with
          | none => rfl
          | some middle => cases piecesStr second <;> simp

theorem piecesStr_chars (chars : Str) : piecesStr (chars.map .char) = some chars := by
  induction chars with
  | nil => rfl
  | cons c chars ih => simp [piecesStr, WordPiece.str, ih]

mutual

theorem mrshWordStr_flatten : (word : Word) → mrshWordStr word = piecesStr (flatten word)
  | .string str false _ _ => by rw [flatten, piecesStr_chars, mrshWordStr]
  | .string str true _ _ => by simp [flatten, piecesStr, WordPiece.str, mrshWordStr]
  | .parameter wp => by
      rw [mrshWordStr, flatten]
      cases wp.arg <;> rfl
  | .list children false _ _ => by rw [mrshWordStr, flatten, wordsStr_flatten]
  | .list children true _ _ => by
      rw [mrshWordStr, flatten, wordsStr_flatten children, ← List.singleton_append, piecesStr_append,
        piecesStr_append]
      cases found : piecesStr (flattenAll children) <;> simp [piecesStr, WordPiece.str]
  | .command _ _ _ => rfl
  | .arithmetic _ => rfl
  | .null => rfl

theorem wordsStr_flatten : (words : List Word) → wordsStr words = piecesStr (flattenAll words)
  | [] => rfl
  | word :: words => by
      rw [wordsStr, flattenAll, piecesStr_append, mrshWordStr_flatten word, wordsStr_flatten words]

end

/-- Segments that are read as a string. -/
structure QuotesText (segments : List WordSegment) (written value : Str) : Prop where
  apart : segments.IsChain WordSegment.Apart
  notComment : ∀ segment ∈ segments, segment.startsComment = false
  noExpansion : segments.flatMap WordSegment.expansions = []
  text : segments.flatMap WordSegment.text = written
  str : piecesStr (segments.flatMap WordSegment.pieces) = some value

theorem QuotesText.cons {segments : List WordSegment} {written value str : Str}
    (quotes : QuotesText segments written value)
    (segment : WordSegment) (apart : ∀ other, segment.Apart other) (notComment : segment.startsComment = false)
    (noExpansion : segment.expansions = []) (pieces : piecesStr segment.pieces = some str) :
    QuotesText (segment :: segments) (segment.text ++ written) (str ++ value) where
  apart := by
    cases segments with
    | nil => exact .singleton segment
    | cons other segments => exact .cons_cons (apart other) quotes.apart
  notComment := List.forall_mem_cons.mpr ⟨notComment, quotes.notComment⟩
  noExpansion := by rw [List.flatMap_cons, noExpansion, quotes.noExpansion, List.nil_append]
  text := by rw [List.flatMap_cons, quotes.text]
  str := by
    rw [List.flatMap_cons, piecesStr_append, pieces, quotes.str]
    rfl

theorem quotesText_nil : QuotesText [] [] [] :=
  ⟨.nil, (fun _ member => absurd member List.not_mem_nil), rfl, rfl, rfl⟩

theorem quotesText_single {segments : List WordSegment} {written value : Str}
    (quotes : QuotesText segments written value)
    (chars : Str) (quotable : ∀ c ∈ chars, c ≠ '\'' ∧ c ≠ '\x00') :
    QuotesText (.single chars quotable :: segments) ('\'' :: (chars ++ ['\'']) ++ written) (chars ++ value) :=
  quotes.cons (.single chars quotable) (fun _ => trivial) rfl rfl
    (by simp [WordSegment.pieces, piecesStr, WordPiece.str])

/-- A single quote is written between double quotes. -/
def quotedQuote : WordSegment :=
  .double [.plain ['\''] (by simp) (by simp [EndsDoubleQuoted])] (.singleton _)

theorem quotesText_quote {segments : List WordSegment} {written value : Str}
    (quotes : QuotesText segments written value) :
    QuotesText (quotedQuote :: segments) ('"' :: '\'' :: '"' :: written) ('\'' :: value) :=
  quotes.cons quotedQuote (fun _ => trivial) rfl rfl rfl

/-- Single quotes with characters in front of what is printed for the rest of the value. -/
theorem quotesText_escapeChar (value : Str) (visible : ∀ c ∈ value, c ≠ '\x00') (run : Str)
    (quotable : ∀ c ∈ run, c ≠ '\'' ∧ c ≠ '\x00') :
    ∃ segments, segments ≠ [] ∧
      QuotesText segments ('\'' :: (run ++ value.flatMap escapeChar ++ ['\''])) (run ++ value) := by
  induction value generalizing run with
  | nil =>
      have quotes := quotesText_single quotesText_nil run quotable
      exact ⟨_, List.cons_ne_nil _ _, by simpa using quotes⟩
  | cons c value ih =>
      rw [List.forall_mem_cons] at visible
      by_cases quote : c = '\''
      · subst quote
        obtain ⟨segments, _, rest⟩ := ih visible.2 [] (by simp)
        have quotes := quotesText_single (quotesText_quote rest) run quotable
        exact ⟨_, List.cons_ne_nil _ _, by simpa [escapeChar] using quotes⟩
      · have longer : ∀ d ∈ run ++ [c], d ≠ '\'' ∧ d ≠ '\x00' := by
          intro d member
          rcases List.mem_append.mp member with inRun | isLast
          · exact quotable d inRun
          · rw [List.mem_singleton.mp isLast]
            exact ⟨quote, visible.1⟩
        obtain ⟨segments, nonempty, rest⟩ := ih visible.2 (run ++ [c]) longer
        exact ⟨segments, nonempty, by simpa [escapeChar, quote] using rest⟩

theorem isSafeChar_literal {c : Char} (safe : isSafeChar c = true) : isLiteral c = true ∧ c ≠ '#' := by
  have ne : ∀ d, isSafeChar d = false → c ≠ d := by
    rintro d other rfl
    rw [safe] at other
    cases other
  refine ⟨?_, ne '#' (by decide)⟩
  simp [isLiteral, isOperatorStart, isBlank, ne '\x00' (by decide), ne '\n' (by decide), ne ')' (by decide),
    ne '$' (by decide), ne '\x60' (by decide), ne '\'' (by decide), ne '"' (by decide), ne '\\' (by decide),
    ne '&' (by decide), ne '|' (by decide), ne ';' (by decide), ne '<' (by decide), ne '>' (by decide),
    ne ' ' (by decide), ne '\t' (by decide)]

theorem quotesText_escaped (value : Str) (visible : ∀ c ∈ value, c ≠ '\x00') :
    ∃ segments, segments ≠ [] ∧ QuotesText segments (escaped value) value := by
  unfold escaped
  by_cases safe : (value.all isSafeChar && !value.isEmpty) = true
  · rw [if_pos safe]
    simp only [Bool.and_eq_true, List.all_eq_true, Bool.not_eq_true', List.isEmpty_eq_false_iff] at safe
    obtain ⟨safe, nonempty⟩ := safe
    have literal : ∀ c ∈ value, isLiteral c = true := fun c member => (isSafeChar_literal (safe c member)).1
    have notComment : (WordSegment.literal value nonempty literal).startsComment = false := by
      obtain ⟨c, more, rfl⟩ := List.exists_cons_of_ne_nil nonempty
      exact beq_false_of_ne (isSafeChar_literal (safe c List.mem_cons_self)).2
    have quotes := quotesText_nil.cons (.literal value nonempty literal) (fun _ => trivial) notComment rfl
      (piecesStr_chars value)
    exact ⟨_, List.cons_ne_nil _ _, by simpa [WordSegment.text] using quotes⟩
  · rw [if_neg safe]
    obtain ⟨segments, nonempty, quotes⟩ := quotesText_escapeChar value visible [] (by simp)
    exact ⟨segments, nonempty, by simpa using quotes⟩

/-- What `print_escaped` prints in front of a newline is read as one word up to the newline, and the
string of the word is the value. -/
theorem word_escaped (self : Productions) {value rest : Str} {parser : Parser} (visible : ∀ c ∈ value, c ≠ '\x00')
    (idle : parser.hasSym = false) (buf : parser.buf = escaped value ++ '\n' :: rest) :
    ∃ read after, word self '\x00' parser = .done (some read) after ∧ after.buf = '\n' :: rest ∧
      mrshWordStr read = some value := by
  obtain ⟨segments, nonempty, quotes⟩ := quotesText_escaped value visible
  rw [← quotes.text] at buf
  have child := word_readsChild self nonempty quotes.apart (.inr (.inl rfl)) rfl quotes.notComment idle buf
  rw [quotes.noExpansion] at child
  obtain ⟨read, after, ended, inWord, flat⟩ := child
  refine ⟨read, after, ended, inWord.buf, ?_⟩
  rw [mrshWordStr_flatten, flat, quotes.str]

/-- `it's` between two newlines -/
theorem word_escaped_quote : ∃ read after, word (productions 1) '\x00'
    (mrshParserWithData (escaped ['\n', 'i', 't', '\'', 's', '\n'] ++ ['\n'])) = .done (some read) after ∧
      after.buf = ['\n'] ∧ mrshWordStr read = some ['\n', 'i', 't', '\'', 's', '\n'] :=
  word_escaped (productions 1) (by simp) rfl rfl

end Mrsh
