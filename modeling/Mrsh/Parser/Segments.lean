import Mathlib.Data.List.Forall2
import Mrsh.Parser.ArithmText
import Mrsh.Parser.Lines

namespace Mrsh

open Mrsh.Data

/-! # Words of several segments

Literal characters, quoted strings and parameter expansions follow one another
in a word. What `word` reads for one of them depends on the segments before it
through the symbol that the parser keeps: the first expansion consumes it, and
every later one looks for a new symbol behind its dollar. There a `#` starts a
comment.
-/

/-- A parameter expansion without an operation. -/
inductive Expansion where
  | name (chars : Str) (isName : ArithmExpr.IsWritable.IsName chars)
  | braced (chars : Str) (nonempty : chars ≠ []) (isName : nameLength true true chars = chars.length)
  | special (c : Char) (isSpecial : isSpecialParameter c = true)

namespace Expansion

def text : Expansion → Str
  | .name chars _ => '$' :: chars
  | .braced chars _ _ => '$' :: '{' :: (chars ++ ['}'])
  | .special c _ => ['$', c]

def parameter : Expansion → Str
  | .name chars _ => chars
  | .braced chars _ _ => chars
  | .special c _ => [c]

/-- Whether the expansion is that of the number of arguments. -/
def isHash : Expansion → Bool
  | .special c _ => c == '#'
  | _ => false

/-- The text after the expansion does not go on with the characters of its name. -/
def Ends : Expansion → Str → Prop
  | .name _ _, rest => nameLength false false rest = 0
  | _, _ => True

end Expansion

/-- What can stand between double quotes, where single quotes are characters like others. -/
inductive QuotedSegment where
  | plain (chars : Str) (nonempty : chars ≠ []) (plain : ∀ c ∈ chars, ¬ EndsDoubleQuoted c ∧ c ≠ '\\')
  | expansion (inner : Expansion)

namespace QuotedSegment

def text : QuotedSegment → Str
  | .plain chars _ _ => chars
  | .expansion inner => inner.text

def expansions : QuotedSegment → List Expansion
  | .plain _ _ _ => []
  | .expansion inner => [inner]

/-- No character of a name directly follows an expansion without braces. -/
def Apart (first second : QuotedSegment) : Prop :=
  match first, second with
  | .expansion inner, .plain chars _ _ => inner.Ends chars
  | _, _ => True

end QuotedSegment

inductive WordSegment where
  | literal (chars : Str) (nonempty : chars ≠ []) (literal : ∀ c ∈ chars, isLiteral c = true)
  | single (chars : Str) (quotable : ∀ c ∈ chars, c ≠ '\'' ∧ c ≠ '\x00')
  | double (body : List QuotedSegment) (apart : body.IsChain QuotedSegment.Apart)
  | expansion (inner : Expansion)

namespace WordSegment

def text : WordSegment → Str
  | .literal chars _ _ => chars
  | .single chars _ => '\'' :: (chars ++ ['\''])
  | .double body _ => '"' :: (body.flatMap QuotedSegment.text ++ ['"'])
  | .expansion inner => inner.text

/-- The expansions of the segment from left to right. -/
def expansions : WordSegment → List Expansion
  | .literal _ _ _ => []
  | .single _ _ => []
  | .double body _ => body.flatMap QuotedSegment.expansions
  | .expansion inner => [inner]

/-- On its own such a segment is a comment. -/
def startsComment : WordSegment → Bool
  | .literal chars _ _ => charAt chars 0 == '#'
  | _ => false

/-- No character of a name directly follows an expansion without braces. -/
def Apart (first second : WordSegment) : Prop :=
  match first, second with
  | .expansion inner, .literal chars _ _ => inner.Ends chars
  | _, _ => True

end WordSegment

/-- A word has at least one segment. -/
structure SegmentedWord where
  segments : List WordSegment
  nonempty : segments ≠ []
  apart : segments.IsChain WordSegment.Apart

namespace SegmentedWord

def text (written : SegmentedWord) : Str := written.segments.flatMap WordSegment.text

def expansions (written : SegmentedWord) : List Expansion := written.segments.flatMap WordSegment.expansions

end SegmentedWord

/-! ## What a word consists of -/

/-- A piece of a word. Unquoted characters do not show which strings they were in. -/
inductive WordPiece where
  | char (c : Char)
  | single (chars : Str)
  | quote
  | parameter (name : Str) (op : ParameterOp) (colon : Bool)
  | child (word : Word)

mutual

/-- The pieces of a word from left to right, without their positions. Double
quotes are pieces of their own before and after what they quote. -/
def flatten : Word → List WordPiece
  | .string str false _ _ => str.map .char
  | .string str true _ _ => [.single str]
  | .parameter wp =>
      match wp.arg with
      | none => [.parameter wp.name wp.op wp.colon]
      | some _ => [.child (.parameter wp)]
  | .list children false _ _ => flattenAll children
  | .list children true _ _ => .quote :: (flattenAll children ++ [.quote])
  | .command program backQuoted range => [.child (.command program backQuoted range)]
  | .arithmetic body => [.child (.arithmetic body)]
  | .null => [.child .null]

def flattenAll : List Word → List WordPiece
  | [] => []
  | word :: words => flatten word ++ flattenAll words

end

/-- The word that is read for a segment alone. -/
def ReadsAlone (self : Productions) (segment : WordSegment) (read : Word) : Prop :=
  ∃ after, word self '\x00' (mrshParserWithData (segment.text ++ [' '])) = .done (some read) after

/-- `word` reads the word up to the given text, as it reads each segment alone. -/
def ReadsBySegments (self : Productions) (written : SegmentedWord) (tail : Str) (parser : Parser) : Prop :=
  ∃ read after alone, word self '\x00' parser = .done (some read) after ∧ after.buf = tail ∧
    List.Forall₂ (ReadsAlone self) written.segments alone ∧ flatten read = flattenAll alone

theorem flattenAll_append (first second : List Word) :
    flattenAll (first ++ second) = flattenAll first ++ flattenAll second := by
  induction first with
  | nil => rfl
  | cons word words ih => simp [flattenAll, ih]

namespace WordBuilder

/-- The pieces that the builder has collected. -/
def pieces (builder : WordBuilder) : List WordPiece := flattenAll builder.children ++ builder.buf.map .char

@[simp] theorem pieces_startAt (builder : WordBuilder) (pos : Position) :
    (builder.startAt pos).pieces = builder.pieces := by
  simp [pieces]

@[simp] theorem pieces_appendChar (builder : WordBuilder) (c : Char) :
    (builder.appendChar c).pieces = builder.pieces ++ [.char c] := by
  simp [pieces, appendChar]

theorem flattenAll_push (builder : WordBuilder) (pos : Position) :
    flattenAll (builder.push pos).children = builder.pieces := by
  obtain ⟨range, pushed⟩ := builder.push_children pos
  rw [pushed, flattenAll_append]
  unfold pieces
  cases builder.buf with
  | nil => simp [flattenAll]
  | cons c chars => simp [flattenAll, flatten]

theorem pieces_add (builder : WordBuilder) (pos : Position) (child : Word) :
    ((builder.push pos).add child).pieces = builder.pieces ++ flatten child := by
  have children : flattenAll ((builder.push pos).children ++ [child]) = builder.pieces ++ flatten child := by
    rw [flattenAll_append, flattenAll_push]
    simp [flattenAll]
  simp [pieces, add, children]

theorem flatten_word (builder : WordBuilder) : flatten builder.word = flattenAll builder.children := by
  unfold word
  rcases builder.children with _ | ⟨first, _ | ⟨second, rest⟩⟩
  · rfl
  · simp [flattenAll]
  · rfl

end WordBuilder

/-! ## The symbol inside a word -/

variable {rest : Str} {parser : Parser}

/-- The parser has read a part of a word. The symbol in front of the word is kept
up to the first expansion. -/
structure InWord (kept : Bool) (text : Str) (parser : Parser) : Prop where
  buf : parser.buf = text
  hasSym : parser.hasSym = kept
  found : kept = true → parser.sym = .token

theorem InWord.moved {kept : Bool} {text : Str} (inWord : InWord kept text parser) (rest : Str) (pos : Position)
    (line : Bool) : InWord kept rest (parser.moved rest pos line) where
  buf := rfl
  hasSym := inWord.hasSym
  found := inWord.found

theorem InWord.symbol_kept {text : Str} (inWord : InWord true text parser) :
    symbol .token parser = .done true parser := by
  simp [symbol, getSymbol, inWord.hasSym, inWord.found]

/-- In front of a token the symbol is one, whether it is kept or found again. -/
theorem InWord.symbol {kept : Bool} {text : Str} (inWord : InWord kept text parser)
    (starts : kept = false → symbolAt text = some .token) :
    ∃ after, symbol .token parser = .done true after ∧ InWord true text after := by
  cases kept with
  | true => exact ⟨parser, inWord.symbol_kept, inWord⟩
  | false =>
      have next := nextSymbolWithin_of_symbolAt parser parser.buf.length
        (by rw [inWord.buf]; exact starts rfl)
      refine ⟨{ parser with hasSym := true, sym := .token }, ?_, inWord.buf, rfl, fun _ => rfl⟩
      simp [Mrsh.symbol, getSymbol, inWord.hasSym, nextSymbol, bufferFuel, next]

theorem skipComment_ends (fuel : Nat) (parser : Parser) (enough : parser.buf.length < fuel) :
    ∃ after, skipComment fuel parser = .done () after ∧
      (charAt after.buf 0 = '\x00' ∨ charAt after.buf 0 = '\n') := by
  induction fuel generalizing parser with
  | zero => omega
  | succ fuel ih =>
      have peeked : parserPeekChar parser = .done (charAt parser.buf 0) parser := rfl
      by_cases ends : (charAt parser.buf 0 == '\x00' || charAt parser.buf 0 == '\n') = true
      · refine ⟨parser, ?_, by simpa using ends⟩
        rw [skipComment, Run.bind_of_done peeked, if_pos ends]
        rfl
      · cases buf : parser.buf with
        | nil =>
            rw [buf] at ends
            exact absurd rfl ends
        | cons c more =>
            have visible : c ≠ '\x00' := by
              rintro rfl
              rw [buf] at ends
              exact ends rfl
            obtain ⟨after, skipped, atEnd⟩ := ih (parser.moved more (parser.pos.advance c) false)
              (by rw [buf, List.length_cons] at enough; exact Nat.lt_of_succ_lt_succ enough)
            refine ⟨after, ?_, atEnd⟩
            rw [skipComment, Run.bind_of_done peeked, if_neg ends,
              Run.bind_of_done (parserReadChar_cons buf visible)]
            exact skipped

theorem symbol_comment (idle : parser.hasSym = false) (buf : parser.buf = '#' :: rest) :
    ∃ after sym, sym ≠ .token ∧ after.hasSym = true ∧ after.sym = sym ∧
      symbol .token parser = .done false after := by
  obtain ⟨between, skipped, ends⟩ := skipComment_ends (parser.buf.length + 1) { parser with hasSym := true }
    (Nat.lt_succ_self _)
  obtain ⟨sym, notToken, starts⟩ : ∃ sym, sym ≠ .token ∧ symbolAt between.buf = some sym := by
    rcases ends with ends | ends
    · exact ⟨.eofToken, by decide, by simp [symbolAt, ends]⟩
    · exact ⟨.newline, by decide, by simp [symbolAt, ends]⟩
  have first : nextSymbolWithin (rest.length + 1 + 1) parser =
      nextSymbolWithin (rest.length + 1) between := by
    rw [nextSymbolWithin_of_none (rest.length + 1) buf (by rw [buf]; rfl), if_neg (by decide),
      Run.bind_of_done skipped]
  refine ⟨{ between with hasSym := true, sym }, sym, notToken, rfl, rfl, ?_⟩
  have found := first.trans (nextSymbolWithin_of_symbolAt between rest.length starts)
  have fuel : parser.buf.length + 1 = rest.length + 1 + 1 := by rw [buf, List.length_cons]
  simp [symbol, getSymbol, idle, nextSymbol, bufferFuel, fuel, found, notToken]

/-! ## Expansions -/

theorem InWord.readToken {tok : Str} (inWord : InWord true (tok ++ rest) parser)
    (visible : ∀ c ∈ tok, c ≠ '\x00') :
    ∃ range after, readToken tok.length parser = .done (some (tok, range)) after ∧ InWord false rest after := by
  obtain ⟨pos, line, read⟩ := parserRead_append parser tok visible inWord.buf
  refine ⟨⟨parser.pos, pos⟩, { parser.moved rest pos line with hasSym := false }, ?_, rfl, rfl, nofun⟩
  simp [Mrsh.readToken, inWord.symbol_kept, getPos, read, consumeSymbol, Parser.moved]

theorem InWord.peekName {kept : Bool} {text : Str} (inWord : InWord kept text parser)
    (starts : kept = false → symbolAt text = some .token) (inBraces : Bool) :
    ∃ after, peekName inBraces parser = .done (nameLength inBraces true text) after ∧ InWord true text after := by
  obtain ⟨after, isToken, found⟩ := inWord.symbol starts
  refine ⟨after, ?_, found⟩
  rw [Mrsh.peekName, Run.bind_of_done isToken, if_pos rfl, Run.gets_apply, found.buf]

/-- The child that a function reads, or that it reads none. -/
def ReadsChild (run : Outcome Stop Parser (Option Word)) (accepted kept : Bool) (rest : Str)
    (pieces : List WordPiece) : Prop :=
  if accepted = true then
    ∃ word after, run = .done (some word) after ∧ InWord kept rest after ∧ flatten word = pieces
  else ∃ after, run = .done none after

theorem expectDollar_name {kept : Bool} {tok : Str} (self : Productions)
    (inWord : InWord kept ('$' :: (tok ++ rest)) parser)
    (notBrace : charAt (tok ++ rest) 0 ≠ '{') (notParen : charAt (tok ++ rest) 0 ≠ '(')
    (starts : kept = false → symbolAt (tok ++ rest) = some .token)
    (length : (if nameLength false true (tok ++ rest) == 0 && isSpecialParameter (charAt (tok ++ rest) 0) then 1
      else nameLength false true (tok ++ rest)) = tok.length)
    (nonempty : tok ≠ []) (visible : ∀ c ∈ tok, c ≠ '\x00') :
    ReadsChild (expectDollar self parser) true false rest [.parameter tok .none false] := by
  have read := parserReadChar_cons inWord.buf (by decide)
  have afterDollar := inWord.moved (tok ++ rest) (parser.pos.advance '$') false
  obtain ⟨named, peeked, namedIn⟩ := afterDollar.peekName starts false
  obtain ⟨range, after, token, inRest⟩ := namedIn.readToken visible
  have notEmpty : ¬ (tok.length == 0) = true := by simpa using nonempty
  let wp : WordParameter := ⟨tok, .none, false, none, parser.pos, range, .invalid, .invalid, .invalid⟩
  have flat : flatten (.parameter wp) = [.parameter tok .none false] := by simp [flatten, wp]
  refine ⟨.parameter wp, after, ?_, inRest, flat⟩
  have asserted : assert ('$' == '$') (parser.moved (tok ++ rest) (parser.pos.advance '$') false) =
      .done () (parser.moved (tok ++ rest) (parser.pos.advance '$') false) := rfl
  have head : parserPeekChar (parser.moved (tok ++ rest) (parser.pos.advance '$') false) =
      .done (charAt (tok ++ rest) 0) (parser.moved (tok ++ rest) (parser.pos.advance '$') false) := rfl
  rw [expectDollar, getPos, Run.gets_bind, Run.bind_of_done read,
    Run.bind_of_done asserted, Run.bind_of_done head, if_neg (by simpa using notBrace),
    if_neg (by simpa using notParen), Run.bind_of_done peeked]
  rw [length, if_neg notEmpty, Run.bind_of_done token]
  rfl

/-- Where no symbol is kept, a hash after the dollar starts a comment. -/
theorem expectDollar_comment (self : Productions) (inWord : InWord false ('$' :: '#' :: rest) parser) :
    ∃ after, expectDollar self parser = .done none after := by
  have read := parserReadChar_cons inWord.buf (by decide)
  have afterDollar := inWord.moved ('#' :: rest) (parser.pos.advance '$') false
  obtain ⟨after, sym, notToken, pending, found, isToken⟩ := symbol_comment afterDollar.hasSym afterDollar.buf
  have again : symbol .token after = .done false after := by
    simp [symbol, getSymbol, pending, found, notToken]
  have head : parserPeekChar (parser.moved ('#' :: rest) (parser.pos.advance '$') false) =
      .done '#' (parser.moved ('#' :: rest) (parser.pos.advance '$') false) := rfl
  have asserted : assert ('$' == '$') (parser.moved ('#' :: rest) (parser.pos.advance '$') false) =
      .done () (parser.moved ('#' :: rest) (parser.pos.advance '$') false) := rfl
  have peeked : peekName false (parser.moved ('#' :: rest) (parser.pos.advance '$') false) = .done 0 after := by
    rw [peekName, Run.bind_of_done isToken]
    rfl
  have token : readToken 1 after = .done none after := by
    rw [readToken, Run.bind_of_done again]
    rfl
  refine ⟨after, ?_⟩
  rw [expectDollar, getPos, Run.gets_bind, Run.bind_of_done read,
    Run.bind_of_done asserted, Run.bind_of_done head, if_neg (by decide), if_neg (by decide),
    Run.bind_of_done peeked]
  exact Run.bind_of_done token

theorem expectParameterExpression_name {kept : Bool} {chars : Str} (self : Productions) (dollarPos : Position)
    (inWord : InWord kept ('{' :: (chars ++ '}' :: rest)) parser) (nonempty : chars ≠ [])
    (isName : nameLength true true chars = chars.length) :
    ReadsChild (expectParameterExpression self dollarPos parser) true false rest
      [.parameter chars .none false] := by
  have nameChars := nameLength_chars true chars isName
  obtain ⟨c, more, rfl⟩ := List.exists_cons_of_ne_nil nonempty
  have nameChar := nameChars c List.mem_cons_self
  have visible : ∀ d ∈ c :: more, d ≠ '\x00' := by
    rintro d member rfl
    exact absurd (nameChars _ member) (by decide)
  have notHash : ¬ (c == '#') = true := by
    intro same
    rw [eq_of_beq same] at nameChar
    exact absurd nameChar (by decide)
  have length : nameLength true true (c :: more ++ '}' :: rest) = (c :: more).length :=
    nameLength_name true (c :: more) isName rfl (.inl nonempty)
  have notEmpty : ¬ ((c :: more).length == 0) = true := by simp
  have readBrace := parserReadChar_cons inWord.buf (by decide)
  let inside := parser.moved (c :: more ++ '}' :: rest) (parser.pos.advance '{') false
  have insideIn : InWord kept (c :: more ++ '}' :: rest) inside := inWord.moved _ _ _
  obtain ⟨named, peeked, namedIn⟩ := insideIn.peekName (fun _ => (nameChar_token nameChar _).1) true
  obtain ⟨range, between, token, closing⟩ := namedIn.readToken visible
  have asserted : assert ('{' == '{') inside = .done () inside := rfl
  have head : parserPeekChar inside = .done c inside := rfl
  have noOperation : parameterOperation self .none .invalid between =
      .done (some (.none, false, .invalid, none)) between := by
    have atBrace : charAt between.buf 0 = '}' := by rw [closing.buf]; rfl
    rw [parameterOperation, Run.bind_of_done (parserPeekChar_of atBrace), if_neg (by decide)]
    rfl
  have readClosing := parserReadChar_cons closing.buf (by decide)
  let wp : WordParameter :=
    ⟨c :: more, .none, false, none, dollarPos, range, .invalid, parser.pos, between.pos⟩
  have flat : flatten (.parameter wp) = [.parameter (c :: more) .none false] := by simp [flatten, wp]
  refine ⟨.parameter wp, between.moved rest (between.pos.advance '}') false, ?_, closing.moved _ _ _, flat⟩
  rw [expectParameterExpression, getPos, Run.gets_bind, Run.bind_of_done readBrace]
  change (assert ('{' == '{') >>= _) inside = _
  rw [Run.bind_of_done asserted, Run.bind_of_done head, Run.gets_bind, if_neg notHash]
  change (peekName true >>= _) inside = _
  rw [Run.bind_of_done peeked, length, if_neg notEmpty, Run.bind_of_done token]
  change (parameterOperation self .none .invalid >>= _) between = _
  rw [Run.bind_of_done noOperation]
  change (getPos >>= _) between = _
  rw [getPos, Run.gets_bind, Run.bind_of_done readClosing, if_neg (by decide)]
  rfl

theorem expectDollar_braced {kept : Bool} {chars : Str} (self : Productions)
    (inWord : InWord kept ('$' :: '{' :: (chars ++ '}' :: rest)) parser) (nonempty : chars ≠ [])
    (isName : nameLength true true chars = chars.length) :
    ReadsChild (expectDollar self parser) true false rest [.parameter chars .none false] := by
  have read := parserReadChar_cons inWord.buf (by decide)
  let opened := parser.moved ('{' :: (chars ++ '}' :: rest)) (parser.pos.advance '$') false
  have asserted : assert ('$' == '$') opened = .done () opened := rfl
  have head : parserPeekChar opened = .done '{' opened := rfl
  have same : expectDollar self parser = expectParameterExpression self parser.pos opened := by
    rw [expectDollar, getPos, Run.gets_bind, Run.bind_of_done read]
    change (assert ('$' == '$') >>= _) opened = _
    rw [Run.bind_of_done asserted, Run.bind_of_done head, if_pos (by decide)]
  rw [same]
  exact expectParameterExpression_name self parser.pos (inWord.moved _ _ _) nonempty isName

theorem special_text {c : Char} (special : isSpecialParameter c = true) (rest : Str) :
    c ≠ '{' ∧ c ≠ '(' ∧ c ≠ '\x00' ∧ nameLength false true (c :: rest) = 0 ∧
      (c ≠ '#' → symbolAt (c :: rest) = some .token) := by
  by_cases digit : c.isDigit = true
  · have nameChar : (c == '_' || c.isAlphanum) = true := by simp [Char.isAlphanum, digit]
    obtain ⟨isToken, _, _, notParen⟩ := nameChar_token nameChar rest
    refine ⟨isDigit_ne digit (by decide), notParen, isDigit_ne digit (by decide), ?_, fun _ => isToken⟩
    simp [nameLength, digit]
  · simp only [isSpecialParameter, digit, Bool.or_false, Bool.or_eq_true, beq_iff_eq] at special
    rcases special with (((((rfl | rfl) | rfl) | rfl) | rfl) | rfl) | rfl
    all_goals exact ⟨by decide, by decide, by decide, rfl, fun _ => by first | rfl | contradiction⟩

namespace Expansion

/-- Whether the expansion is read as one after the given symbol. -/
def accepted (kept : Bool) (expansion : Expansion) : Bool := kept || !expansion.isHash

def piece (expansion : Expansion) : WordPiece := .parameter expansion.parameter .none false

theorem readsChild {kept : Bool} (expansion : Expansion) (self : Productions) (ends : expansion.Ends rest)
    (inWord : InWord kept (expansion.text ++ rest) parser) :
    ReadsChild (expectDollar self parser) (expansion.accepted kept) false rest [expansion.piece] := by
  cases expansion with
  | name chars isName =>
      have named := nameText isName ends
      obtain ⟨c, more, rfl, nameChar, _⟩ := named.starts
      obtain ⟨isToken, _, _, notParen⟩ := nameChar_token nameChar (more ++ rest)
      have notBrace : c ≠ '{' := by
        rintro rfl
        exact absurd nameChar (by decide)
      have length : (if nameLength false true (c :: more ++ rest) == 0 &&
          isSpecialParameter (charAt (c :: more ++ rest) 0) then 1
          else nameLength false true (c :: more ++ rest)) = (c :: more).length := by
        rw [named.length]
        exact if_neg (by simp)
      have accept : (Expansion.name (c :: more) isName).accepted kept = true := by simp [accepted, isHash]
      have dollar : InWord kept ('$' :: (c :: more ++ rest)) parser := inWord
      rw [accept]
      exact expectDollar_name self dollar notBrace notParen (fun _ => isToken) length isName.1 named.visible
  | braced chars nonempty isName =>
      have accept : (Expansion.braced chars nonempty isName).accepted kept = true := by simp [accepted, isHash]
      have dollar : InWord kept ('$' :: '{' :: (chars ++ '}' :: rest)) parser := by simpa [text] using inWord
      rw [accept]
      exact expectDollar_braced self dollar nonempty isName
  | special c isSpecial =>
      obtain ⟨notBrace, notParen, visible, noName, isToken⟩ := special_text isSpecial rest
      have dollar : InWord kept ('$' :: ([c] ++ rest)) parser := inWord
      have length : (if nameLength false true ([c] ++ rest) == 0 && isSpecialParameter (charAt ([c] ++ rest) 0)
          then 1 else nameLength false true ([c] ++ rest)) = [c].length := by
        change (if nameLength false true (c :: rest) == 0 && isSpecialParameter c then 1 else _) = 1
        rw [noName, isSpecial]
        rfl
      cases accept : (Expansion.special c isSpecial).accepted kept with
      | true =>
          have visibleAll : ∀ d ∈ [c], d ≠ '\x00' := by simpa using visible
          refine expectDollar_name self dollar notBrace notParen (fun dropped => isToken ?_) length
            (List.cons_ne_nil c []) visibleAll
          subst dropped
          simpa [accepted, isHash] using accept
      | false =>
          obtain ⟨rfl, rfl⟩ : kept = false ∧ c = '#' := by simpa [accepted, isHash] using accept
          exact expectDollar_comment self dollar

theorem Ends.append {expansion : Expansion} {chars : Str} (ends : expansion.Ends chars) (nonempty : chars ≠ [])
    (rest : Str) : expansion.Ends (chars ++ rest) := by
  obtain ⟨c, more, rfl⟩ := List.exists_cons_of_ne_nil nonempty
  cases expansion with
  | name chars isName =>
      have first : nameLength false false (c :: more) = 0 := ends
      have notName : (c != '_' && !c.isAlphanum) = true := by
        cases nameChar : (c != '_' && !c.isAlphanum) with
        | true => rfl
        | false => simp [nameLength, nameChar] at first
      change nameLength false false (c :: (more ++ rest)) = 0
      rw [nameLength, if_pos notName]
  | braced _ _ _ => trivial
  | special _ _ => trivial

theorem ends_of_char {c : Char} (expansion : Expansion) (notName : (c != '_' && !c.isAlphanum) = true)
    (rest : Str) : expansion.Ends (c :: rest) := by
  cases expansion with
  | name chars isName =>
      change nameLength false false (c :: rest) = 0
      rw [nameLength, if_pos notName]
  | braced _ _ _ => trivial
  | special _ _ => trivial

/-- Whether all the expansions of a word are read as expansions. -/
def acceptedAll (kept : Bool) : List Expansion → Bool
  | [] => true
  | expansion :: expansions => expansion.accepted kept && acceptedAll false expansions

theorem acceptedAll_append (kept : Bool) (first second : List Expansion) :
    acceptedAll kept (first ++ second) = (acceptedAll kept first && acceptedAll (kept && first.isEmpty) second) := by
  induction first generalizing kept with
  | nil => simp [acceptedAll]
  | cons expansion expansions ih => simp [acceptedAll, ih, Bool.and_assoc]

end Expansion

/-! ## Children of the word -/

theorem nestedWord_readsChild {kept last accepted acceptedRest : Bool} {between : Str} {pieces all : List WordPiece}
    {builder : WordBuilder} {child : Parse (Option Word)} {next : WordBuilder → Parse (Option Word)}
    (read : ReadsChild (child parser) accepted kept between pieces)
    (goesOn : ∀ following after, InWord kept between after → following.pieces = builder.pieces ++ pieces →
      ReadsChild (next following after) acceptedRest last rest all) :
    ReadsChild (nestedWord builder child next parser) (accepted && acceptedRest) last rest all := by
  unfold nestedWord
  rw [getPos, Run.gets_bind]
  cases accepted with
  | false =>
      obtain ⟨after, read⟩ := read
      rw [Run.bind_of_done read]
      exact ⟨after, rfl⟩
  | true =>
      obtain ⟨word, after, read, inWord, flat⟩ := read
      rw [Run.bind_of_done read, Bool.true_and]
      exact goesOn _ after inWord (by rw [builder.pieces_add, flat])

theorem singleQuotes_readsChild {kept : Bool} {chars : Str} (quotable : ∀ c ∈ chars, c ≠ '\'' ∧ c ≠ '\x00')
    (inWord : InWord kept ('\'' :: (chars ++ ['\'']) ++ rest) parser) :
    ReadsChild (singleQuotes parser) true kept rest [.single chars] := by
  obtain ⟨range, pos, line, read⟩ := singleQuotes_reads chars quotable inWord.buf
  exact ⟨_, _, read, inWord.moved rest pos line, rfl⟩

namespace QuotedSegment

def pieces : QuotedSegment → List WordPiece
  | .plain chars _ _ => chars.map .char
  | .expansion inner => [inner.piece]

theorem ends_of_apart {expansion : Expansion} {body : List QuotedSegment}
    (apart : (QuotedSegment.expansion expansion :: body).IsChain Apart) (rest : Str) :
    expansion.Ends (body.flatMap text ++ '"' :: rest) := by
  cases body with
  | nil => exact expansion.ends_of_char (by decide) rest
  | cons segment body =>
      have first := (List.isChain_cons_cons.mp apart).1
      rw [List.flatMap_cons, List.append_assoc]
      cases segment with
      | plain chars nonempty plain => exact Expansion.Ends.append first nonempty _
      | expansion inner => cases inner <;> exact expansion.ends_of_char (by decide) _

end QuotedSegment

section

variable (self : Productions) (lquotePos : Position)

theorem doubleQuotesLoop_plain (chars : Str) (plain : ∀ c ∈ chars, ¬ EndsDoubleQuoted c ∧ c ≠ '\\') (fuel : Nat)
    (builder : WordBuilder) (parser : Parser) (buf : parser.buf = chars ++ rest) :
    ∃ following pos line, doubleQuotesLoop self lquotePos (fuel + chars.length) builder parser =
        doubleQuotesLoop self lquotePos fuel following (parser.moved rest pos line) ∧
      following.pieces = builder.pieces ++ chars.map .char := by
  induction chars generalizing builder parser with
  | nil =>
      have atRest : parser.buf = rest := buf
      refine ⟨builder, parser.pos, parser.continuationLine, ?_, by simp⟩
      rw [parser.moved_self atRest]
      rfl
  | cons c chars ih =>
      rw [List.forall_mem_cons] at plain
      have step := doubleQuotesLoop_char self lquotePos (fuel + chars.length) builder buf plain.1.1
        (fun backslash => absurd backslash plain.1.2)
      obtain ⟨following, pos, line, reached, pieces⟩ := ih plain.2 ((builder.startAt parser.pos).appendChar c)
        (parser.moved (chars ++ rest) (parser.pos.advance c) false) rfl
      exact ⟨following, pos, line, step.trans reached, by simp [pieces]⟩

theorem doubleQuotesLoop_dollar (fuel : Nat) (builder : WordBuilder) (starts : charAt parser.buf 0 = '$') :
    doubleQuotesLoop self lquotePos (fuel + 1) builder parser =
      nestedWord (builder.startAt parser.pos) (expectDollar self) (doubleQuotesLoop self lquotePos fuel) parser := by
  rw [doubleQuotesLoop, getPos, Run.gets_bind,
    Run.bind_of_done (parserPeekChar_of starts), if_neg (by decide), if_neg (by decide), if_pos (by decide)]

theorem doubleQuotesLoop_quote {kept : Bool} (fuel : Nat) (builder : WordBuilder)
    (inWord : InWord kept ('"' :: rest) parser) :
    ReadsChild (doubleQuotesLoop self lquotePos (fuel + 1) builder parser) true kept rest
      (.quote :: (builder.pieces ++ [.quote])) := by
  have peeked : charAt parser.buf 0 = '"' := by rw [inWord.buf]; rfl
  have read := parserReadChar_cons inWord.buf (by decide)
  refine ⟨.list ((builder.startAt parser.pos).push parser.pos).children true lquotePos parser.pos, _, ?_,
    inWord.moved rest (parser.pos.advance '"') false, ?_⟩
  · rw [doubleQuotesLoop, getPos, Run.gets_bind,
      Run.bind_of_done (parserPeekChar_of peeked), if_neg (by decide), if_pos (by decide)]
    exact Run.bind_of_done read
  · simp [flatten, WordBuilder.flattenAll_push]

theorem doubleQuotesLoop_readsChild (body : List QuotedSegment) (apart : body.IsChain QuotedSegment.Apart)
    (kept : Bool) (fuel : Nat) (builder : WordBuilder) (parser : Parser)
    (inWord : InWord kept (body.flatMap QuotedSegment.text ++ '"' :: rest) parser)
    (enough : (body.flatMap QuotedSegment.text).length < fuel) :
    ReadsChild (doubleQuotesLoop self lquotePos fuel builder parser)
      (Expansion.acceptedAll kept (body.flatMap QuotedSegment.expansions))
      (kept && (body.flatMap QuotedSegment.expansions).isEmpty) rest
      (.quote :: (builder.pieces ++ body.flatMap QuotedSegment.pieces ++ [.quote])) := by
  induction body generalizing kept fuel builder parser with
  | nil =>
      obtain ⟨fuel, rfl⟩ : ∃ more, fuel = more + 1 := ⟨fuel - 1, by simp at enough; omega⟩
      simpa [Expansion.acceptedAll] using doubleQuotesLoop_quote self lquotePos fuel builder inWord
  | cons segment body ih =>
      have apartRest := apart.of_cons
      rw [List.flatMap_cons, List.append_assoc] at inWord
      rw [List.flatMap_cons, List.length_append] at enough
      cases segment with
      | plain chars nonempty plain =>
          have chars_ : (QuotedSegment.plain chars nonempty plain).text = chars := rfl
          rw [chars_] at inWord enough
          obtain ⟨fuel, rfl⟩ : ∃ more, fuel = more + chars.length := ⟨fuel - chars.length, by omega⟩
          obtain ⟨following, pos, line, step, pieces⟩ :=
            doubleQuotesLoop_plain self lquotePos chars plain fuel builder parser inWord.buf
          have read := ih apartRest kept fuel following _ (inWord.moved _ pos line) (by omega)
          rw [step]
          simpa [pieces, QuotedSegment.expansions, QuotedSegment.pieces] using read
      | expansion inner =>
          obtain ⟨fuel, rfl⟩ : ∃ more, fuel = more + 1 := ⟨fuel - 1, by omega⟩
          have starts : charAt parser.buf 0 = '$' := by
            rw [inWord.buf]
            cases inner <;> rfl
          have child := inner.readsChild self (QuotedSegment.ends_of_apart apart rest) inWord
          have longer : 0 < inner.text.length := by cases inner <;> simp [Expansion.text]
          have left : (body.flatMap QuotedSegment.text).length < fuel := by
            change inner.text.length + _ < fuel + 1 at enough
            omega
          have accept : Expansion.acceptedAll kept ((QuotedSegment.expansion inner :: body).flatMap
              QuotedSegment.expansions) = (inner.accepted kept &&
                Expansion.acceptedAll false (body.flatMap QuotedSegment.expansions)) := rfl
          have consumed : (kept && ((QuotedSegment.expansion inner :: body).flatMap
              QuotedSegment.expansions).isEmpty) = false := Bool.and_false kept
          rw [doubleQuotesLoop_dollar self lquotePos fuel builder starts, accept, consumed]
          apply nestedWord_readsChild child
          intro following after inRest pieces
          have read := ih apartRest false fuel following after inRest left
          rw [pieces, builder.pieces_startAt] at read
          simpa [QuotedSegment.pieces] using read

theorem doubleQuotes_readsChild {kept : Bool} (body : List QuotedSegment)
    (apart : body.IsChain QuotedSegment.Apart)
    (inWord : InWord kept ('"' :: (body.flatMap QuotedSegment.text ++ ['"']) ++ rest) parser) :
    ReadsChild (doubleQuotes self parser)
      (Expansion.acceptedAll kept (body.flatMap QuotedSegment.expansions))
      (kept && (body.flatMap QuotedSegment.expansions).isEmpty) rest
      (.quote :: (body.flatMap QuotedSegment.pieces ++ [.quote])) := by
  have opened : InWord kept ('"' :: (body.flatMap QuotedSegment.text ++ '"' :: rest)) parser := by
    simpa using inWord
  have read := parserReadChar_cons opened.buf (by decide)
  have inside := opened.moved (body.flatMap QuotedSegment.text ++ '"' :: rest) (parser.pos.advance '"') false
  have child := doubleQuotesLoop_readsChild self parser.pos body apart kept
    ((body.flatMap QuotedSegment.text ++ '"' :: rest).length + 1) .empty _ inside
    (by rw [List.length_append]; omega)
  rw [doubleQuotes, getPos, Run.gets_bind, Run.bind_of_done read]
  exact child

end

/-! ## The word -/

namespace WordSegment

def pieces : WordSegment → List WordPiece
  | .literal chars _ _ => chars.map .char
  | .single chars _ => [.single chars]
  | .double body _ => .quote :: (body.flatMap QuotedSegment.pieces ++ [.quote])
  | .expansion inner => [inner.piece]

theorem ends_of_apart {expansion : Expansion} {segments : List WordSegment} {tail : Str}
    (apart : (WordSegment.expansion expansion :: segments).IsChain Apart) (ends : expansion.Ends tail) :
    expansion.Ends (segments.flatMap text ++ tail) := by
  cases segments with
  | nil => exact ends
  | cons segment segments =>
      have first := (List.isChain_cons_cons.mp apart).1
      rw [List.flatMap_cons, List.append_assoc]
      cases segment with
      | literal chars nonempty literal => exact Expansion.Ends.append first nonempty _
      | single chars quotable => exact expansion.ends_of_char (by decide) _
      | double body bodyApart => exact expansion.ends_of_char (by decide) _
      | expansion inner => cases inner <;> exact expansion.ends_of_char (by decide) _

end WordSegment

section

variable (self : Productions) (fuel : Nat)

theorem wordLoop_literals (chars : Str) (literal : ∀ c ∈ chars, isLiteral c = true) (builder : WordBuilder)
    (parser : Parser) (buf : parser.buf = chars ++ rest) :
    ∃ following pos line, wordLoop self '\x00' (fuel + chars.length) builder parser =
        wordLoop self '\x00' fuel following (parser.moved rest pos line) ∧
      following.pieces = builder.pieces ++ chars.map .char := by
  induction chars generalizing builder parser with
  | nil =>
      have atRest : parser.buf = rest := buf
      refine ⟨builder, parser.pos, parser.continuationLine, ?_, by simp⟩
      rw [parser.moved_self atRest]
      rfl
  | cons c chars ih =>
      rw [List.forall_mem_cons] at literal
      have step := wordLoop_literal self (fuel + chars.length) builder buf literal.1
      obtain ⟨following, pos, line, reached, pieces⟩ := ih literal.2 ((builder.startAt parser.pos).appendChar c)
        (parser.moved (chars ++ rest) (parser.pos.advance c) false) rfl
      exact ⟨following, pos, line, step.trans reached, by simp [pieces]⟩

theorem wordLoop_nested {c : Char} {child : Parse (Option Word)} (builder : WordBuilder)
    (starts : charAt parser.buf 0 = c)
    (turns : (c = '$' ∧ child = expectDollar self) ∨ (c = '\'' ∧ child = singleQuotes) ∨
      (c = '"' ∧ child = doubleQuotes self)) :
    wordLoop self '\x00' (fuel + 1) builder parser =
      nestedWord (builder.startAt parser.pos) child (wordLoop self '\x00' fuel) parser := by
  rw [wordLoop, getPos, Run.gets_bind, Run.bind_of_done (parserPeekChar_of starts)]
  rcases turns with ⟨rfl, rfl⟩ | ⟨rfl, rfl⟩ | ⟨rfl, rfl⟩
  · rw [if_neg (by decide), if_pos (by decide)]
  · rw [if_neg (by decide), if_neg (by decide), if_neg (by decide), if_pos (by decide)]
  · rw [if_neg (by decide), if_neg (by decide), if_neg (by decide), if_neg (by decide), if_pos (by decide)]

end

theorem WordSegment.text_length_pos (segment : WordSegment) : 0 < segment.text.length := by
  cases segment with
  | literal chars nonempty literal => exact List.length_pos_of_ne_nil nonempty
  | single chars quotable => simp [text]
  | double body apart => simp [text]
  | expansion inner => cases inner <;> simp [text, Expansion.text]

theorem wordLoop_readsChild (self : Productions) {tail : Str} (stops : StopsWord tail)
    (ends : nameLength false false tail = 0) (segments : List WordSegment) (apart : segments.IsChain WordSegment.Apart)
    (kept : Bool) (fuel : Nat) (builder : WordBuilder) (parser : Parser)
    (inWord : InWord kept (segments.flatMap WordSegment.text ++ tail) parser)
    (enough : (segments.flatMap WordSegment.text).length < fuel) :
    ReadsChild (wordLoop self '\x00' fuel builder parser)
      (Expansion.acceptedAll kept (segments.flatMap WordSegment.expansions)) false tail
      (builder.pieces ++ segments.flatMap WordSegment.pieces) := by
  induction segments generalizing kept fuel builder parser with
  | nil =>
      obtain ⟨fuel, rfl⟩ : ∃ more, fuel = more + 1 := ⟨fuel - 1, by simp at enough; omega⟩
      have atTail : parser.buf = tail := inWord.buf
      obtain ⟨final, after, ended, ⟨pos, rfl⟩, rfl⟩ := wordLoop_end self fuel builder (atTail ▸ stops)
      refine ⟨_, _, ended, ⟨atTail, rfl, nofun⟩, ?_⟩
      rw [WordBuilder.flatten_word, WordBuilder.flattenAll_push, WordBuilder.pieces_startAt]
      simp
  | cons segment segments ih =>
      have apartRest := apart.of_cons
      have longer := segment.text_length_pos
      rw [List.flatMap_cons, List.append_assoc] at inWord
      rw [List.flatMap_cons, List.length_append] at enough
      rw [List.flatMap_cons, Expansion.acceptedAll_append, List.flatMap_cons]
      -- The segments other than literals are children of the word.
      have nested : ∀ c child, charAt parser.buf 0 = c →
          ((c = '$' ∧ child = expectDollar self) ∨ (c = '\'' ∧ child = singleQuotes) ∨
            (c = '"' ∧ child = doubleQuotes self)) →
          ReadsChild (child parser) (Expansion.acceptedAll kept segment.expansions)
            (kept && segment.expansions.isEmpty) (segments.flatMap WordSegment.text ++ tail) segment.pieces →
          ReadsChild (wordLoop self '\x00' fuel builder parser)
            (Expansion.acceptedAll kept segment.expansions && Expansion.acceptedAll
              (kept && segment.expansions.isEmpty) (segments.flatMap WordSegment.expansions)) false tail
            (builder.pieces ++ (segment.pieces ++ segments.flatMap WordSegment.pieces)) := by
        intro c child starts turns read
        obtain ⟨fuel, rfl⟩ : ∃ more, fuel = more + 1 := ⟨fuel - 1, by omega⟩
        rw [wordLoop_nested self fuel builder starts turns]
        apply nestedWord_readsChild read
        intro following after inRest pieces
        have readRest := ih apartRest _ fuel following after inRest (by omega)
        rwa [pieces, builder.pieces_startAt, List.append_assoc] at readRest
      cases segment with
      | literal chars nonempty literal =>
          have length : (WordSegment.literal chars nonempty literal).text.length = chars.length := rfl
          obtain ⟨fuel, rfl⟩ : ∃ more, fuel = more + chars.length := ⟨fuel - chars.length, by omega⟩
          obtain ⟨following, pos, line, step, pieces⟩ :=
            wordLoop_literals self fuel chars literal builder parser inWord.buf
          have read := ih apartRest kept fuel following _ (inWord.moved _ pos line) (by omega)
          rw [step]
          simpa [pieces, WordSegment.expansions, WordSegment.pieces, Expansion.acceptedAll] using read
      | single chars quotable =>
          have starts : charAt parser.buf 0 = '\'' := by rw [inWord.buf]; rfl
          refine nested _ _ starts (.inr (.inl ⟨rfl, rfl⟩)) ?_
          simpa [WordSegment.expansions, WordSegment.pieces, Expansion.acceptedAll] using
            singleQuotes_readsChild quotable inWord
      | double body bodyApart =>
          have starts : charAt parser.buf 0 = '"' := by rw [inWord.buf]; rfl
          exact nested _ _ starts (.inr (.inr ⟨rfl, rfl⟩)) (doubleQuotes_readsChild self body bodyApart inWord)
      | expansion inner =>
          have starts : charAt parser.buf 0 = '$' := by
            rw [inWord.buf]
            cases inner <;> rfl
          have innerEnds : inner.Ends tail := by
            cases inner with
            | name chars isName => exact ends
            | braced _ _ _ => trivial
            | special _ _ => trivial
          refine nested _ _ starts (.inl ⟨rfl, rfl⟩) ?_
          simpa [WordSegment.expansions, WordSegment.pieces, Expansion.acceptedAll] using
            inner.readsChild self (WordSegment.ends_of_apart apart innerEnds) inWord

theorem WordSegment.text_starts (segment : WordSegment) (notComment : segment.startsComment = false) (rest : Str) :
    symbolAt (segment.text ++ rest) = some .token ∧
      ¬ (isOperatorStart (charAt (segment.text ++ rest) 0) || charAt (segment.text ++ rest) 0 == ')' ||
        charAt (segment.text ++ rest) 0 == '\x00') = true := by
  cases segment with
  | literal chars nonempty literal =>
      obtain ⟨c, more, rfl⟩ := List.exists_cons_of_ne_nil nonempty
      have first := literal c List.mem_cons_self
      obtain ⟨notOperator, notBlank⟩ := isLiteral_plain first
      have notHash : (c == '#') = false := notComment
      have notNul := isLiteral_ne first (by decide : isLiteral '\x00' = false)
      have notNewline := isLiteral_ne first (by decide : isLiteral '\n' = false)
      have notParen := isLiteral_ne first (by decide : isLiteral ')' = false)
      have head : charAt ((WordSegment.literal (c :: more) nonempty literal).text ++ rest) 0 = c := rfl
      simp [symbolAt, head, notOperator, notBlank, notHash, notNul, notNewline, notParen]
  | single chars quotable => exact ⟨rfl, Bool.false_ne_true⟩
  | double body apart => exact ⟨rfl, Bool.false_ne_true⟩
  | expansion inner => cases inner <;> exact ⟨rfl, Bool.false_ne_true⟩

theorem word_readsChild (self : Productions) {segments : List WordSegment} {tail : Str} (nonempty : segments ≠ [])
    (apart : segments.IsChain WordSegment.Apart) (stops : StopsWord tail) (ends : nameLength false false tail = 0)
    (notComment : ∀ segment ∈ segments, segment.startsComment = false) (idle : parser.hasSym = false)
    (buf : parser.buf = segments.flatMap WordSegment.text ++ tail) :
    ReadsChild (word self '\x00' parser)
      (Expansion.acceptedAll true (segments.flatMap WordSegment.expansions)) false tail
      (segments.flatMap WordSegment.pieces) := by
  obtain ⟨first, more, rfl⟩ := List.exists_cons_of_ne_nil nonempty
  obtain ⟨isToken, goesOn⟩ := first.text_starts (notComment first List.mem_cons_self)
    (more.flatMap WordSegment.text ++ tail)
  rw [← List.append_assoc, ← List.flatMap_cons] at isToken goesOn
  have outside : InWord false ((first :: more).flatMap WordSegment.text ++ tail) parser := ⟨buf, idle, nofun⟩
  obtain ⟨found, symbol, inWord⟩ := outside.symbol fun _ => isToken
  rw [← inWord.buf] at goesOn
  rw [word, Run.bind_of_done symbol, if_pos rfl, Run.bind_of_done (parserPeekChar_of rfl), if_neg goesOn]
  have enough : ((first :: more).flatMap WordSegment.text).length < found.buf.length + 1 := by
    rw [inWord.buf, List.length_append]
    omega
  exact wordLoop_readsChild self stops ends (first :: more) apart true _ .empty found inWord enough

theorem word_comment (self : Productions) {segment : WordSegment} (isComment : segment.startsComment = true)
    (idle : parser.hasSym = false) (buf : parser.buf = segment.text ++ rest) :
    ∃ after, word self '\x00' parser = .done none after := by
  cases segment with
  | literal chars nonempty literal =>
      obtain ⟨c, more, rfl⟩ := List.exists_cons_of_ne_nil nonempty
      have same : (c == '#') = true := isComment
      obtain rfl := eq_of_beq same
      obtain ⟨after, _, _, _, _, symbol⟩ := symbol_comment idle buf
      refine ⟨after, ?_⟩
      rw [word, Run.bind_of_done symbol]
      rfl
  | single chars quotable => cases isComment
  | double body apart => cases isComment
  | expansion inner => cases isComment

namespace Expansion

theorem acceptedAll_false (expansions : List Expansion) :
    acceptedAll false expansions = true ↔ ∀ expansion ∈ expansions, expansion.isHash = false := by
  induction expansions with
  | nil => simp [acceptedAll]
  | cons expansion expansions ih => simp [acceptedAll, accepted, ih]

theorem acceptedAll_true (expansions : List Expansion) :
    acceptedAll true expansions = true ↔ ∀ expansion ∈ expansions.tail, expansion.isHash = false := by
  cases expansions with
  | nil => simp [acceptedAll]
  | cons expansion expansions => simp [acceptedAll, accepted, acceptedAll_false]

theorem acceptedAll_kept {kept : Bool} {expansions : List Expansion}
    (accepted_ : acceptedAll kept expansions = true) : acceptedAll true expansions = true := by
  cases kept with
  | true => exact accepted_
  | false =>
      rw [acceptedAll_false] at accepted_
      rw [acceptedAll_true]
      exact fun expansion member => accepted_ expansion (List.mem_of_mem_tail member)

theorem acceptedAll_of_mem {kept : Bool} {segments : List WordSegment} {segment : WordSegment}
    (accepted_ : acceptedAll kept (segments.flatMap WordSegment.expansions) = true) (member : segment ∈ segments) :
    acceptedAll true segment.expansions = true := by
  induction segments generalizing kept with
  | nil => cases member
  | cons first more ih =>
      rw [List.flatMap_cons, acceptedAll_append, Bool.and_eq_true] at accepted_
      rcases List.mem_cons.mp member with rfl | inMore
      · exact acceptedAll_kept accepted_.1
      · exact ih accepted_.2 inMore

end Expansion

theorem blank_ends {blank : Char} (isBlank_ : isBlank blank = true) (rest : Str) :
    StopsWord (blank :: rest) ∧ nameLength false false (blank :: rest) = 0 := by
  have first : blank = ' ' ∨ blank = '\t' := by simpa [isBlank] using isBlank_
  refine ⟨.inr (.inr (.inr (.inr isBlank_))), ?_⟩
  rcases first with rfl | rfl <;> rfl

theorem segments_alone (self : Productions) (segments : List WordSegment)
    (notComment : ∀ segment ∈ segments, segment.startsComment = false)
    (accepted : ∀ segment ∈ segments, Expansion.acceptedAll true segment.expansions = true) :
    ∃ alone, List.Forall₂ (ReadsAlone self) segments alone ∧
      flattenAll alone = segments.flatMap WordSegment.pieces := by
  induction segments with
  | nil => exact ⟨[], .nil, rfl⟩
  | cons segment segments ih =>
      rw [List.forall_mem_cons] at notComment accepted
      obtain ⟨alone, read, flat⟩ := ih notComment.2 accepted.2
      obtain ⟨stops, ends⟩ := blank_ends (by decide : isBlank ' ' = true) []
      have child := @word_readsChild (mrshParserWithData (segment.text ++ [' '])) self [segment] [' ']
        (by simp) (.singleton segment) stops ends (by simpa using notComment.1) rfl
        (by simp [mrshParserWithData])
      rw [List.flatMap_singleton, List.flatMap_singleton, accepted.1] at child
      obtain ⟨first, after, readFirst, _, flatFirst⟩ := child
      refine ⟨first :: alone, .cons ⟨after, readFirst⟩ read, ?_⟩
      rw [flattenAll, flatFirst, flat, List.flatMap_cons]

/-- A word is read by its segments unless one of them is a comment when it is alone, or an
expansion of `#` comes after another expansion. -/
theorem word_readsBySegments_iff (self : Productions) (written : SegmentedWord) {blank : Char}
    (isBlank_ : isBlank blank = true) (idle : parser.hasSym = false)
    (buf : parser.buf = written.text ++ blank :: rest) :
    ReadsBySegments self written (blank :: rest) parser ↔
      (∀ segment ∈ written.segments, segment.startsComment = false) ∧
        ∀ expansion ∈ written.expansions.tail, expansion.isHash = false := by
  obtain ⟨stops, ends⟩ := blank_ends isBlank_ rest
  constructor
  · rintro ⟨read, after, alone, ended, _, each, _⟩
    have notComment : ∀ segment ∈ written.segments, segment.startsComment = false := by
      have noComments : List.Forall₂ (fun segment read => segment.startsComment = false ∧ ReadsAlone self segment read)
          written.segments alone := by
        refine each.imp fun segment read alone => ⟨?_, alone⟩
        obtain ⟨after, ended⟩ := alone
        cases comment : segment.startsComment with
        | false => rfl
        | true =>
            obtain ⟨end_, none_⟩ := @word_comment [' '] (mrshParserWithData (segment.text ++ [' '])) self segment
              comment rfl rfl
            rw [none_] at ended
            cases ended
      exact ((List.forall₂_and_left _ _).mp noComments).1
    refine ⟨notComment, (Expansion.acceptedAll_true _).mp ?_⟩
    have whole := word_readsChild self written.nonempty written.apart stops ends notComment idle buf
    cases accepted : Expansion.acceptedAll true (written.segments.flatMap WordSegment.expansions) with
    | true => exact accepted
    | false =>
        rw [accepted] at whole
        obtain ⟨end_, none_⟩ := whole
        rw [none_] at ended
        cases ended
  · rintro ⟨notComment, noHash⟩
    have accepted := (Expansion.acceptedAll_true written.expansions).mpr noHash
    have whole := word_readsChild self written.nonempty written.apart stops ends notComment idle buf
    rw [show Expansion.acceptedAll true (written.segments.flatMap WordSegment.expansions) = true from accepted] at whole
    obtain ⟨read, after, ended, inWord, flat⟩ := whole
    obtain ⟨alone, each, flatAlone⟩ := segments_alone self written.segments notComment
      fun segment member => Expansion.acceptedAll_of_mem accepted member
    exact ⟨read, after, alone, ended, inWord.buf, each, by rw [flat, flatAlone]⟩

/-- `ab$x'c d'"e f${y}"$@` -/
def fiveSegments : SegmentedWord where
  segments :=
    [.literal ['a', 'b'] (by simp) (by simp [isLiteral, isOperatorStart, isBlank]),
      .expansion (.name ['x'] (by constructor <;> decide)),
      .single ['c', ' ', 'd'] (by simp),
      .double [.plain ['e', ' ', 'f'] (by decide) (by simp [EndsDoubleQuoted]),
        .expansion (.braced ['y'] (by decide) (by decide))] (.cons_cons trivial (.singleton _)),
      .expansion (.special '@' (by decide))]
  nonempty := by simp
  apart := .cons_cons trivial (.cons_cons trivial (.cons_cons trivial (.cons_cons trivial (.singleton _))))

theorem word_readsBySegments_five : ReadsBySegments (productions 1) fiveSegments [' ']
    (mrshParserWithData (fiveSegments.text ++ [' '])) :=
  (word_readsBySegments_iff (productions 1) fiveSegments (by decide : isBlank ' ' = true) rfl rfl).mpr
    ⟨by decide, by decide⟩

/-- `$a$#` -/
def nameThenHash : SegmentedWord where
  segments := [.expansion (.name ['a'] (by constructor <;> decide)), .expansion (.special '#' (by decide))]
  nonempty := by simp
  apart := .cons_cons trivial (.singleton _)

/-- There is no word in front of the blank, although each expansion alone is one. -/
theorem hash_after_expansion_no_word : ¬ ReadsBySegments (productions 1) nameThenHash [' ']
    (mrshParserWithData (nameThenHash.text ++ [' '])) := by
  rintro ⟨read, after, alone, ended, _⟩
  have noWord : (word (productions 1) '\x00'
      (mrshParserWithData (nameThenHash.text ++ [' ']))).value?.map Option.isNone = some true := by
    decide +kernel
  rw [ended] at noWord
  cases noWord

end Mrsh
