import Mrsh.Parser.State
import Mrsh.Shell.Word

namespace Mrsh

open Mrsh.Data

/-! # Words

The functions of `parser/word.c`. Productions that are called recursively come
from a `Productions` record, which `productions` in the module for programs
builds one level of calls at a time.
-/

structure Productions where
  /-- Bounds the loops that may read more text than the buffer held at first. -/
  fuel : Nat
  word : Char → Parse (Option Word)
  arithmeticWord : Char → Parse (Option Word)
  mrshParseProgram : Parse (Option Program)
  andOr : Parse (Option AndOrList)
  elsePart : Parse (Option Command)
  compoundCommand : Parse (Option Command)

/-- The children that a word function has collected, the characters that are
not in one yet and the position of the first of them. -/
structure WordBuilder where
  children : List Word
  buf : Str
  childBegin : Position

namespace WordBuilder

def empty : WordBuilder := ⟨[], [], .invalid⟩

def startAt (builder : WordBuilder) (pos : Position) : WordBuilder :=
  if builder.childBegin.valid then builder else { builder with childBegin := pos }

def appendChar (builder : WordBuilder) (c : Char) : WordBuilder :=
  { builder with buf := builder.buf ++ [c] }

/-- `push_buffer_word_string`. -/
def push (builder : WordBuilder) (pos : Position) : WordBuilder :=
  if builder.buf.isEmpty then { builder with childBegin := .invalid }
  else ⟨builder.children ++ [.string builder.buf false false ⟨builder.childBegin, pos⟩], [], .invalid⟩

def add (builder : WordBuilder) (child : Word) : WordBuilder :=
  { builder with children := builder.children ++ [child] }

/-- The only child, or the unquoted list of the children. -/
def word (builder : WordBuilder) : Word :=
  match builder.children with
  | [child] => child
  | children => mrshWordListCreate children false

end WordBuilder

/-- Pushes the buffer and parses a child, without which there is no word. -/
def nestedWord (builder : WordBuilder) (child : Parse (Option Word))
    (continue_ : WordBuilder → Parse (Option Word)) : Parse (Option Word) := do
  let pos ← getPos
  match ← child with
  | none => pure none
  | some child => continue_ ((builder.push pos).add child)

def finishWord (builder : WordBuilder) : Parse (Option Word) := do
  let pos ← getPos
  consumeSymbol
  pure (some (builder.push pos).word)

def singleQuotesLoop (begin : Position) : Nat → Str → Parse (Option Word)
  | 0, _ => Run.stop .outOfFuel
  | fuel + 1, buf => do
      let c ← parserPeekChar
      if c == '\x00' then do
        parserSetError "single quotes not terminated".toList
        pure none
      else if c == '\'' then do
        let _ ← parserReadChar
        let finish ← getPos
        pure (some (.string buf true false ⟨begin, finish⟩))
      else if c == '\n' then do
        readContinuationLine
        singleQuotesLoop begin fuel (buf ++ [c])
      else do
        let _ ← parserReadChar
        singleQuotesLoop begin fuel (buf ++ [c])

def singleQuotes : Parse (Option Word) := do
  let begin ← getPos
  let c ← parserReadChar
  assert (c == '\'')
  let fuel ← bufferFuel
  singleQuotesLoop begin fuel []

/-- The blanks that `word_list` puts between two children. -/
def readBlanks : Nat → Str → Parse Str
  | 0, _ => Run.stop .outOfFuel
  | fuel + 1, buf => do
      let c ← parserPeekChar
      if isBlank c then do
        let c ← parserReadChar
        readBlanks fuel (buf ++ [c])
      else pure buf

def wordListLoop (stop : Char) (f : Char → Parse (Option Word)) : Nat → List Word → Parse (List Word)
  | 0, _ => Run.stop .outOfFuel
  | fuel + 1, children => do
      let c ← parserPeekChar
      if c == stop then pure children
      else
        match ← f stop with
        | none => pure children
        | some child => do
            let begin ← getPos
            let blankFuel ← bufferFuel
            let buf ← readBlanks blankFuel []
            if buf.isEmpty then pure (children ++ [child])
            else do
              let finish ← getPos
              wordListLoop stop f fuel (children ++ [child, .string buf false false ⟨begin, finish⟩])

def wordList (stop : Char) (f : Char → Parse (Option Word)) : Parse (Option Word) := do
  let fuel ← bufferFuel
  let children ← wordListLoop stop f fuel []
  match children with
  | [] => pure none
  | [child] => pure (some child)
  | children => pure (some (mrshWordListCreate children false))

/-! ## Parameter expansion, command substitution and arithmetic expansion -/

def charToParameterOpVal (c : Char) : ParameterOp :=
  if c == '-' then .minus
  else if c == '=' then .equal
  else if c == '?' then .qmark
  else if c == '+' then .plus
  else .none

/-- The operation and whether it has a colon. -/
def expectParameterOp : Parse (Option (ParameterOp × Bool)) := do
  let first ← parserReadChar
  let colon := first == ':'
  let c ← if colon then parserReadChar else pure first
  let op := charToParameterOpVal c
  if op != .none then pure (some (op, colon))
  else if colon then do
    parserSetError "expected a parameter operation".toList
    pure none
  else do
    let next ← parserPeekChar
    let isDouble := c == next
    match if c == '%' then some (if isDouble then ParameterOp.dpercent else .percent)
        else if c == '#' then some (if isDouble then .dhash else .hash)
        else none with
    | none => do
        parserSetError "expected a parameter operation".toList
        pure none
    | some op => do
        if isDouble then
          let _ ← parserReadChar
        pure (some (op, colon))

/-- What `expect_parameter_expression` reads after the name: the operation,
whether it has a colon, its range and the argument. -/
def parameterOperation (self : Productions) (op : ParameterOp) (opRange : Range) :
    Parse (Option (ParameterOp × Bool × Range × Option Word)) := do
  let c ← parserPeekChar
  if op == .none && c != '}' then
    let begin ← getPos
    match ← expectParameterOp with
    | none => pure none
    | some (op, colon) => do
        let finish ← getPos
        let arg ← wordList '}' self.word
        pure (some (op, colon, ⟨begin, finish⟩, arg))
  else pure (some (op, false, opRange, none))

def expectParameterExpression (self : Productions) (dollarPos : Position) : Parse (Option Word) := do
  let lbracePos ← getPos
  let c ← parserReadChar
  assert (c == '{')
  let leading ← parserPeekChar
  let opBegin ← getPos
  let (op, opRange) ←
    if leading == '#' then do
      let _ ← parserReadChar
      let finish ← getPos
      pure (ParameterOp.leadingHash, Range.mk opBegin finish)
    else pure (ParameterOp.none, Range.invalid)
  let nameLen ← peekName true
  if nameLen == 0 then do
    parserSetError "expected a parameter".toList
    pure none
  else
    match ← readToken nameLen with
    | none => pure none
    | some (name, nameRange) =>
        match ← parameterOperation self op opRange with
        | none => pure none
        | some (op, colon, opRange, arg) => do
            let rbracePos ← getPos
            let c ← parserReadChar
            if c != '}' then do
              parserSetError "expected end of parameter".toList
              pure none
            else
              pure (some (.parameter
                { name, op, colon, arg, dollarPos, nameRange, opRange, lbracePos, rbracePos }))

def setAliasFunc (aliasFunc : Option (Str → Option Str)) : Parse Unit :=
  Run.modify fun parser => { parser with aliasFunc }

/-- The alias callback is switched off while the program is parsed. -/
def expectWordCommand (self : Productions) : Parse (Option Word) := do
  let c ← parserReadChar
  assert (c == '(')
  let isToken ← symbol .token
  assert isToken
  consumeSymbol
  let aliasFunc ← Run.gets (·.aliasFunc)
  setAliasFunc none
  let prog ← self.mrshParseProgram
  setAliasFunc aliasFunc
  match ← mrshParserError with
  | some _ => pure none
  | none =>
      match prog with
      | none => do
          parserSetError "expected a program".toList
          pure none
      | some prog =>
          match ← expectToken [')'] with
          | none => pure none
          | some _ => pure (some (.command (some prog) false .invalid))

def expectWordArithmetic (self : Productions) : Parse (Option Word) := do
  let c ← parserReadChar
  assert (c == '(')
  let c ← parserReadChar
  assert (c == '(')
  Run.modify fun parser => { parser with arithNestedParens := 0 }
  match ← wordList '\x00' self.arithmeticWord with
  | none =>
      match ← mrshParserError with
      | some _ => pure none
      | none => do
          parserSetError "expected an arithmetic expression".toList
          pure none
  | some body =>
      match ← expectToken [')'] with
      | none => pure none
      | some _ =>
          match ← expectToken [')'] with
          | none => pure none
          | some _ => pure (some (.arithmetic body))

def isSpecialParameter (c : Char) : Bool :=
  c == '@' || c == '*' || c == '#' || c == '?' || c == '-' || c == '$' || c == '!' || c.isDigit

def expectDollar (self : Productions) : Parse (Option Word) := do
  let dollarPos ← getPos
  let c ← parserReadChar
  assert (c == '$')
  let c ← parserPeekChar
  if c == '{' then expectParameterExpression self dollarPos
  else if c == '(' then do
    let next ← parserPeekAt 1
    if next == '(' then expectWordArithmetic self else expectWordCommand self
  else do
    let nameLen ← peekName false
    let nameLen := if nameLen == 0 && isSpecialParameter c then 1 else nameLen
    if nameLen == 0 then do
      parserSetError "invalid parameter name".toList
      pure none
    else
      match ← readToken nameLen with
      | none => pure none
      | some (name, nameRange) =>
          pure (some (.parameter
            { name, op := .none, colon := false, arg := none, dollarPos, nameRange,
              opRange := .invalid, lbracePos := .invalid, rbracePos := .invalid }))

/-- Runs a parser for another text. The nodes of both trees are numbered
together. The result comes with the error of the other parser. -/
def withSubparser {α : Type} (buf : Str) (parse : Parse α) : Parse (α × Option Str) := fun parser =>
  match parse { mrshParserWithData buf with
      nextAddress := parser.nextAddress, bodies := parser.bodies } with
  | .done value sub =>
      .done (value, sub.error.map Prod.fst)
        { parser with nextAddress := sub.nextAddress, bodies := sub.bodies }
  | .stopped reason _ => .stopped reason parser

/-- The text between the back quotes. -/
def backQuotesText : Nat → Str → Parse (Option Str)
  | 0, _ => Run.stop .outOfFuel
  | fuel + 1, buf => do
      let c ← parserPeekChar
      if c == '\x00' then do
        parserSetError "back quotes not terminated".toList
        pure none
      else if c == '\x60' then do
        let _ ← parserReadChar
        pure (some buf)
      else do
        let next ← parserPeekAt 1
        let quoted := c == '\\' && (next == '$' || next == '\x60' || next == '\\')
        if quoted then
          let _ ← parserReadChar
        let c := if quoted then next else c
        if c == '\n' then readContinuationLine
        else
          let _ ← parserReadChar
        backQuotesText fuel (buf ++ [c])

def backQuotes (self : Productions) : Parse (Option Word) := do
  let begin ← getPos
  let c ← parserReadChar
  assert (c == '\x60')
  let fuel ← bufferFuel
  match ← backQuotesText fuel [] with
  | none => pure none
  | some buf =>
      match ← withSubparser buf self.mrshParseProgram with
      | (_, some errMsg) => do
          parserSetError errMsg
          pure none
      | (prog, none) => do
          let finish ← getPos
          pure (some (.command prog true ⟨begin, finish⟩))

def doubleQuotesLoop (self : Productions) (lquotePos : Position) :
    Nat → WordBuilder → Parse (Option Word)
  | 0, _ => Run.stop .outOfFuel
  | fuel + 1, builder => do
      let pos ← getPos
      let builder := builder.startAt pos
      let c ← parserPeekChar
      if c == '\x00' then do
        parserSetError "double quotes not terminated".toList
        pure none
      else if c == '"' then do
        let builder := builder.push pos
        let _ ← parserReadChar
        pure (some (.list builder.children true lquotePos pos))
      else if c == '$' then
        nestedWord builder (expectDollar self) (doubleQuotesLoop self lquotePos fuel)
      else if c == '\x60' then
        nestedWord builder (backQuotes self) (doubleQuotesLoop self lquotePos fuel)
      else do
        let next ← parserPeekAt 1
        if c == '\\' && next == '\n' then do
          let _ ← parserReadChar
          readContinuationLine
          doubleQuotesLoop self lquotePos fuel builder
        else do
          let quoted := c == '\\' && (next == '$' || next == '\x60' || next == '"' || next == '\\')
          if quoted then
            let _ ← parserReadChar
          let _ ← parserReadChar
          doubleQuotesLoop self lquotePos fuel (builder.appendChar (if quoted then next else c))

def doubleQuotes (self : Productions) : Parse (Option Word) := do
  let lquotePos ← getPos
  let c ← parserReadChar
  assert (c == '"')
  let fuel ← bufferFuel
  doubleQuotesLoop self lquotePos fuel .empty

def wordLoop (self : Productions) (stop : Char) : Nat → WordBuilder → Parse (Option Word)
  | 0, _ => Run.stop .outOfFuel
  | fuel + 1, builder => do
      let pos ← getPos
      let builder := builder.startAt pos
      let c ← parserPeekChar
      if c == '\x00' || c == '\n' || c == ')' || c == stop then finishWord builder
      else if c == '$' then nestedWord builder (expectDollar self) (wordLoop self stop fuel)
      else if c == '\x60' then nestedWord builder (backQuotes self) (wordLoop self stop fuel)
      else if c == '\'' then nestedWord builder singleQuotes (wordLoop self stop fuel)
      else if c == '"' then nestedWord builder (doubleQuotes self) (wordLoop self stop fuel)
      else if c == '\\' then do
        let _ ← parserReadChar
        let c ← parserPeekChar
        if c == '\n' then do
          readContinuationLine
          wordLoop self stop fuel builder
        else do
          let _ ← parserReadChar
          wordLoop self stop fuel (builder.appendChar c)
      else if isOperatorStart c || isBlank c then finishWord builder
      else do
        let _ ← parserReadChar
        wordLoop self stop fuel (builder.appendChar c)

def word (self : Productions) (stop : Char) : Parse (Option Word) := do
  if ← symbol .token then
    let c ← parserPeekChar
    if isOperatorStart c || c == ')' || c == stop then pure none
    else do
      let fuel ← bufferFuel
      wordLoop self stop fuel .empty
  else pure none

/-- Whether the text goes on with the end of the arithmetic expansion. -/
def atArithmeticEnd : Parse Bool :=
  Run.gets fun parser =>
    charAt parser.buf 0 == ')' && charAt parser.buf 1 == ')' && parser.arithNestedParens == 0

/-- Counts a parenthesis of the expression. The result is whether a closing one
has no partner. -/
def countParen (c : Char) : Parse Bool := do
  if c == '(' then
    Run.modify fun parser => { parser with arithNestedParens := parser.arithNestedParens + 1 }
    pure false
  else if c == ')' then do
    let nested ← Run.gets (·.arithNestedParens)
    if nested == 0 then pure true
    else do
      Run.modify fun parser => { parser with arithNestedParens := parser.arithNestedParens - 1 }
      pure false
  else pure false

def readArithmeticChar (builder : WordBuilder) (c : Char)
    (continue_ : WordBuilder → Parse (Option Word)) : Parse (Option Word) := do
  if ← countParen c then
    parserSetError "unmatched closing parenthesis in arithmetic expression".toList
    pure none
  else do
    let _ ← parserReadChar
    continue_ (builder.appendChar c)

def arithmeticWordLoop (self : Productions) : Nat → WordBuilder → Parse (Option Word)
  | 0, _ => Run.stop .outOfFuel
  | fuel + 1, builder => do
      let pos ← getPos
      let builder := builder.startAt pos
      let c ← parserPeekChar
      let next ← parserPeekAt 1
      let atEnd ← atArithmeticEnd
      if c == '\x00' || c == '\n' || c == ';' || isBlank c || atEnd then finishWord builder
      else if c == '$' then nestedWord builder (expectDollar self) (arithmeticWordLoop self fuel)
      else if c == '\x60' then nestedWord builder (backQuotes self) (arithmeticWordLoop self fuel)
      else if c == '\'' then nestedWord builder singleQuotes (arithmeticWordLoop self fuel)
      else if c == '"' then nestedWord builder (doubleQuotes self) (arithmeticWordLoop self fuel)
      else if c == '\\' then do
        let _ ← parserReadChar
        let c ← parserPeekChar
        if c == '\n' then do
          readContinuationLine
          arithmeticWordLoop self fuel builder
        else readArithmeticChar builder c (arithmeticWordLoop self fuel)
      else if (c == '<' && next == '<') || (c == '>' && next == '>') then do
        let _ ← parserReadChar
        readArithmeticChar (builder.appendChar c) c (arithmeticWordLoop self fuel)
      else readArithmeticChar builder c (arithmeticWordLoop self fuel)

def arithmeticWord (self : Productions) (_stop : Char) : Parse (Option Word) := do
  if ← atArithmeticEnd then pure none
  else do
    let fuel ← bufferFuel
    arithmeticWordLoop self fuel .empty

def parameterExpansionWordLoop (self : Productions) : Nat → WordBuilder → Parse (Option Word)
  | 0, _ => Run.stop .outOfFuel
  | fuel + 1, builder => do
      let pos ← getPos
      let builder := builder.startAt pos
      let c ← parserPeekChar
      if c == '\x00' then finishWord builder
      else if c == '$' then
        nestedWord builder (expectDollar self) (parameterExpansionWordLoop self fuel)
      else if c == '\x60' then
        nestedWord builder (backQuotes self) (parameterExpansionWordLoop self fuel)
      else if c == '\\' then do
        let _ ← parserReadChar
        let c ← parserPeekChar
        if c == '\n' then do
          readContinuationLine
          parameterExpansionWordLoop self fuel builder
        else do
          let _ ← parserReadChar
          parameterExpansionWordLoop self fuel (builder.appendChar c)
      else do
        let _ ← parserReadChar
        parameterExpansionWordLoop self fuel (builder.appendChar c)

def parameterExpansionWord (self : Productions) : Parse (Option Word) := do
  let fuel ← bufferFuel
  parameterExpansionWordLoop self fuel .empty

end Mrsh
