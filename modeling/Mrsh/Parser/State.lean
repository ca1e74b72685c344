import Mrsh.Data.Run
import Mrsh.Text

namespace Mrsh

open Mrsh.Data

/-! # The parser state and its tokens

The functions of `parser/parser.c`. The buffer holds the whole text that is
left, so that a read never waits for more input; a position past its end reads
as the terminating NUL. Consuming that NUL is a failed assertion.
-/

inductive SymbolName where
  | eofToken | token | newline
  | andIf | orIf | dsemi
  | dless | dgreat | lessand | greatand | lessgreat | dlessdash
  | clobber
deriving Repr, DecidableEq

/-- Sorted from the longest to the shortest. -/
def operators : List (SymbolName × Str) :=
  [(.dlessdash, ['<', '<', '-']), (.andIf, ['&', '&']), (.orIf, ['|', '|']), (.dsemi, [';', ';']),
   (.dless, ['<', '<']), (.dgreat, ['>', '>']), (.lessand, ['<', '&']), (.greatand, ['>', '&']),
   (.lessgreat, ['<', '>']), (.clobber, ['>', '|'])]

def keywords : List Str :=
  [['i', 'f'], ['t', 'h', 'e', 'n'], ['e', 'l', 's', 'e'], ['e', 'l', 'i', 'f'], ['f', 'i'],
   ['d', 'o'], ['d', 'o', 'n', 'e'], ['c', 'a', 's', 'e'], ['e', 's', 'a', 'c'],
   ['w', 'h', 'i', 'l', 'e'], ['u', 'n', 't', 'i', 'l'], ['f', 'o', 'r'], ['{'], ['}'], ['!'],
   ['i', 'n']]

/-- The alias callback only matters through the values it returns: two calls
return the same pointer when they are for the same name. The lines of
here-documents are added to redirections that are in the tree already, and are
kept under the address of the redirection. -/
structure Parser where
  buf : Str
  pos : Position
  error : Option (Str × Position)
  hasSym : Bool
  sym : SymbolName
  hereDocuments : List IoRedirect
  continuationLine : Bool
  aliasFunc : Option (Str → Option Str)
  arithNestedParens : Int
  nextAddress : Nat
  bodies : List (Address × Word)

/-- Why a parser stops without a result. -/
inductive Stop where
  | outOfFuel
  | aborted
deriving Repr, DecidableEq

abbrev Parse := Run Stop Parser

/-- The parser of `mrsh_parser_with_data`. -/
def mrshParserWithData (buf : Str) : Parser where
  buf := buf
  pos := ⟨0, 1, 1⟩
  error := none
  hasSym := false
  sym := .eofToken
  hereDocuments := []
  continuationLine := false
  aliasFunc := none
  arithNestedParens := 0
  nextAddress := 0
  bodies := []

def charAt (buf : Str) (i : Nat) : Char := buf.getD i '\x00'

/-- The character at index `i` of the buffer after a `parser_peek` that reaches it. -/
def parserPeekAt (i : Nat) : Parse Char := Run.gets fun parser => charAt parser.buf i

def parserPeekChar : Parse Char := parserPeekAt 0

def Position.advance (pos : Position) (c : Char) : Position :=
  if c = '\n' then ⟨pos.offset + 1, pos.line + 1, 1⟩
  else ⟨pos.offset + 1, pos.line, pos.column + 1⟩

def parserReadChar : Parse Char := do
  let parser ← Run.get
  match parser.buf with
  | [] => Run.stop .aborted
  | c :: buf =>
      if c = '\x00' then Run.stop .aborted
      else do
        Run.modify fun parser =>
          { parser with buf, pos := parser.pos.advance c, continuationLine := false }
        pure c

def parserRead : Nat → Parse Str
  | 0 => pure []
  | size + 1 => do
      let c ← parserReadChar
      let rest ← parserRead size
      pure (c :: rest)

def getPos : Parse Position := Run.gets (·.pos)

/-- `assert`. -/
def assert (condition : Bool) : Parse Unit :=
  if condition then pure () else Run.stop .aborted

def readContinuationLine : Parse Unit := do
  let c ← parserReadChar
  assert (c == '\n')
  Run.modify fun parser => { parser with continuationLine := true }

def isOperatorStart (c : Char) : Bool :=
  c == '&' || c == '|' || c == ';' || c == '<' || c == '>'

/-- `parser_set_error` with a message. Only the first error is kept. -/
def parserSetError (msg : Str) : Parse Unit :=
  Run.modify fun parser =>
    match parser.error with
    | some _ => parser
    | none => { parser with error := some (msg, parser.pos), hereDocuments := [] }

/-- The message of `mrsh_parser_error`. -/
def mrshParserError : Parse (Option Str) := Run.gets fun parser => parser.error.map Prod.fst

/-- `parser_begin`, which calls `parser_set_error` without a message. -/
def parserBegin : Parse Unit :=
  Run.modify fun parser => { parser with error := none, continuationLine := false }

/-- The operator of more than one character that the text starts with. -/
def operatorAt (buf : Str) : Option SymbolName :=
  (operators.find? fun operator => operator.2.isPrefixOf buf).map Prod.fst

/-- Reads the text of a comment. -/
def skipComment : Nat → Parse Unit
  | 0 => Run.stop .outOfFuel
  | fuel + 1 => do
      let c ← parserPeekChar
      if c == '\x00' || c == '\n' then pure ()
      else do
        let _ ← parserReadChar
        skipComment fuel

def setSymbol (sym : SymbolName) : Parse Unit := Run.modify fun parser => { parser with sym }

/-- `next_symbol` with a bound on the blanks and comments that it skips. -/
def nextSymbolWithin : Nat → Parse Unit
  | 0 => Run.stop .outOfFuel
  | fuel + 1 => do
      Run.modify fun parser => { parser with hasSym := true }
      let c ← parserPeekChar
      if c == '\x00' then setSymbol .eofToken
      else if c == '\n' then setSymbol .newline
      else do
        let buf ← Run.gets (·.buf)
        match if isOperatorStart c then operatorAt buf else none with
        | some name => setSymbol name
        | none =>
            if isBlank c then do
              let _ ← parserReadChar
              nextSymbolWithin fuel
            else if c == '#' then do
              skipComment (buf.length + 1)
              nextSymbolWithin fuel
            else setSymbol .token

/-- Every character of the buffer is read at most once. -/
def bufferFuel : Parse Nat := Run.gets fun parser => parser.buf.length + 1

def nextSymbol : Parse Unit := do
  let fuel ← bufferFuel
  nextSymbolWithin fuel

def getSymbol : Parse SymbolName := do
  let hasSym ← Run.gets (·.hasSym)
  if hasSym then Run.gets (·.sym)
  else do
    nextSymbol
    Run.gets (·.sym)

def consumeSymbol : Parse Unit := Run.modify fun parser => { parser with hasSym := false }

def symbol (sym : SymbolName) : Parse Bool := do
  let current ← getSymbol
  pure (current == sym)

def eof : Parse Bool := symbol .eofToken

def newline : Parse Bool := do
  if ← symbol .newline then
    let c ← parserReadChar
    assert (c == '\n')
    consumeSymbol
    pure true
  else pure false

def linebreakWithin : Nat → Parse Unit
  | 0 => Run.stop .outOfFuel
  | fuel + 1 => do
      if ← newline then linebreakWithin fuel else pure ()

def linebreak : Parse Unit := do
  let fuel ← bufferFuel
  linebreakWithin fuel

def newlineList : Parse Bool := do
  if ← newline then
    linebreak
    pure true
  else pure false

def mrshParserEof (parser : Parser) : Bool := parser.hasSym && parser.sym == .eofToken

def mrshParserContinuationLine (parser : Parser) : Bool := parser.continuationLine

/-! ## Names and words -/

def nameLength (inBraces first : Bool) : Str → Nat
  | [] => 0
  | c :: rest =>
      if c != '_' && !c.isAlphanum then 0
      else if first && c.isDigit && !inBraces then 0
      else nameLength inBraces false rest + 1

def peekName (inBraces : Bool) : Parse Nat := do
  if ← symbol .token then
    Run.gets fun parser => nameLength inBraces true parser.buf
  else pure 0

/-- `none` stands for a quoting character, which makes the length zero. -/
def wordLength (stop : Char) : Str → Option Nat
  | [] => some 0
  | c :: rest =>
      if c == '\x00' || c == '\n' || c == ')' then some 0
      else if c == '$' || c == '\x60' || c == '\'' || c == '"' || c == '\\' then none
      else if isOperatorStart c || isBlank c || c == stop then some 0
      else (wordLength stop rest).map (· + 1)

def peekWord (stop : Char) : Parse Nat := do
  if ← symbol .token then
    Run.gets fun parser => (wordLength stop parser.buf).getD 0
  else pure 0

/-- The range of the token, if the text starts with it. -/
def token (str : Str) : Parse (Option Range) := do
  if ← symbol .token then
    let begin ← getPos
    match str with
    | [c] =>
        if c.isAlpha then wholeWord begin
        else do
          let next ← parserPeekChar
          if next == c then do
            let _ ← parserReadChar
            consumed begin
          else pure none
    | _ => wholeWord begin
  else pure none
where
  consumed (begin : Position) : Parse (Option Range) := do
    let finish ← getPos
    consumeSymbol
    pure (some ⟨begin, finish⟩)
  wholeWord (begin : Position) : Parse (Option Range) := do
    let wordLen ← peekWord '\x00'
    let buf ← Run.gets (·.buf)
    if str.length == wordLen && buf.take wordLen == str then do
      let _ ← parserRead str.length
      consumed begin
    else pure none

def expectToken (str : Str) : Parse (Option Range) := do
  match ← token str with
  | some range => pure (some range)
  | none => do
      parserSetError ("expected '".toList ++ str ++ ['\''])
      pure none

def readToken (len : Nat) : Parse (Option (Str × Range)) := do
  if ← symbol .token then
    let begin ← getPos
    let tok ← parserRead len
    let finish ← getPos
    consumeSymbol
    pure (some (tok, ⟨begin, finish⟩))
  else pure none

end Mrsh
