import Mrsh.Parser.Word

namespace Mrsh

open Mrsh.Data

/-! # Programs

The functions of `parser/program.c`, and the two entry points.
-/

def operatorStr (sym : SymbolName) : Option Str :=
  (operators.find? fun operator => operator.1 == sym).map Prod.snd

/-- The range of the operator, if it is the current symbol. -/
def operator (sym : SymbolName) : Parse (Option Range) := do
  if ← symbol sym then
    let begin ← getPos
    match operatorStr sym with
    | none => Run.stop .aborted
    | some str => do
        let buf ← parserRead str.length
        assert (buf == str)
        let finish ← getPos
        consumeSymbol
        pure (some ⟨begin, finish⟩)
  else pure none

inductive Separator where
  | ampersand | semicolon | newline
deriving DecidableEq

def separatorOp : Parse (Option Separator) := do
  match ← token ['&'] with
  | some _ => pure (some .ampersand)
  | none =>
      match ← token [';'] with
      | some _ => pure (some .semicolon)
      | none => pure none

/-! ## Aliases -/

def isAliasChar (c : Char) : Bool :=
  c == '_' || c == '!' || c == '%' || c == ',' || c == '@' || c.isAlphanum

def peekAlias : Parse Nat := do
  let n ← peekWord '\x00'
  let buf ← Run.gets (·.buf)
  pure (if (buf.take n).all isAliasChar then n else 0)

/-- The loop of `apply_aliases`, where `lastRepl` is the name of the alias whose
value was inserted last. -/
def applyAliasesLoop (aliasFunc : Str → Option Str) : Nat → Option Str → Parse Unit
  | 0, _ => Run.stop .outOfFuel
  | fuel + 1, lastRepl => do
      if ← symbol .token then
        let aliasLen ← peekAlias
        if aliasLen == 0 then pure ()
        else do
          let buf ← Run.gets (·.buf)
          let name := buf.take aliasLen
          match aliasFunc name with
          | none => pure ()
          | some repl =>
              if lastRepl == some name then pure ()
              else do
                Run.modify fun parser => { parser with buf := repl ++ parser.buf.drop aliasLen }
                consumeSymbol
                applyAliasesLoop aliasFunc fuel (some name)
      else pure ()

def applyAliases (self : Productions) : Parse Unit := do
  match ← Run.gets (·.aliasFunc) with
  | none => pure ()
  | some aliasFunc => applyAliasesLoop aliasFunc self.fuel none

/-! ## Redirections -/

def ioHereOp : Parse (Option (IoRedirectOp × Range)) := do
  match ← operator .dless with
  | some range => pure (some (.dless, range))
  | none =>
      match ← operator .dlessdash with
      | some range => pure (some (.dlessdash, range))
      | none => pure none

/-- The operation, its range and the delimiter. -/
def ioHere (self : Productions) : Parse (Option (IoRedirectOp × Range × Word)) := do
  match ← ioHereOp with
  | none => pure none
  | some (op, range) =>
      match ← word self '\x00' with
      | none => do
          parserSetError "expected a name after IO here-document redirection operator".toList
          pure none
      | some name => pure (some (op, range, name))

def filename (self : Productions) : Parse (Option Word) := word self '\x00'

/-- The first of the parsers that matches, with the operation that it stands for. -/
def firstOp : List (Parse (Option Range) × IoRedirectOp) → Parse (Option (IoRedirectOp × Range))
  | [] => pure none
  | (parse, op) :: rest => do
      match ← parse with
      | some range => pure (some (op, range))
      | none => firstOp rest

def ioRedirectOp : Parse (Option (IoRedirectOp × Range)) :=
  firstOp
    [(token ['<'], .less), (token ['>'], .great), (operator .lessand, .lessand),
     (operator .greatand, .greatand), (operator .dgreat, .dgreat), (operator .clobber, .clobber),
     (operator .lessgreat, .lessgreat)]

/-- The operation, its range and the file name. -/
def ioFile (self : Productions) : Parse (Option (IoRedirectOp × Range × Word)) := do
  match ← ioRedirectOp with
  | none => pure none
  | some (op, range) =>
      match ← filename self with
      | none => do
          parserSetError "expected a filename after IO file redirection operator".toList
          pure none
      | some name => pure (some (op, range, name))

def ioNumber : Parse (Option Nat) := do
  if ← symbol .token then
    let c ← parserPeekChar
    let next ← parserPeekAt 1
    if c.isDigit && (next == '<' || next == '>') then do
      let _ ← parserReadChar
      consumeSymbol
      pure (some (digitValue c))
    else pure none
  else pure none

def newAddress : Parse Address := do
  let number ← Run.gets (·.nextAddress)
  Run.modify fun parser => { parser with nextAddress := parser.nextAddress + 1 }
  pure (.parsed number)

def ioRedirect (self : Productions) : Parse (Option IoRedirect) := do
  let numberPos ← getPos
  let number ← ioNumber
  let ioNumberPos := if number.isSome then numberPos else .invalid
  let ioNumber : Int := match number with
    | some number => number
    | none => -1
  match ← ioFile self with
  | some (op, opRange, name) => do
      let addr ← newAddress
      pure (some { addr, ioNumber, op, name, hereDocument := [], ioNumberPos, opRange })
  | none =>
      match ← ioHere self with
      | some (op, opRange, name) => do
          let addr ← newAddress
          let redir : IoRedirect :=
            { addr, ioNumber, op, name, hereDocument := [], ioNumberPos, opRange }
          Run.modify fun parser => { parser with hereDocuments := parser.hereDocuments ++ [redir] }
          pure (some redir)
      | none => do
          if number.isSome then
            parserSetError "expected an IO redirect after IO number".toList
          pure none

/-! ## Simple commands -/

def assignmentWord (self : Productions) : Parse (Option Assignment) := do
  if ← symbol .token then
    let nameLen ← peekName false
    let next ← parserPeekAt nameLen
    if nameLen == 0 || next != '=' then pure none
    else
      match ← readToken nameLen with
      | none => Run.stop .aborted
      | some (name, nameRange) => do
          let equalPos ← getPos
          let _ ← parserReadChar
          let value ← word self '\x00'
          pure (some { name, value := value.getD (mrshWordStringCreate [] false), nameRange, equalPos })
  else pure none

/-- The parts of the command that were read. The result is whether there was one. -/
def cmdPrefix (self : Productions) (cmd : SimpleCommand) : Parse (Option SimpleCommand) := do
  match ← ioRedirect self with
  | some redir => pure (some { cmd with ioRedirects := cmd.ioRedirects ++ [redir] })
  | none =>
      match ← assignmentWord self with
      | some assign => pure (some { cmd with assignments := cmd.assignments ++ [assign] })
      | none => pure none

def cmdName (self : Productions) : Parse (Option Word) := do
  applyAliases self
  let wordLen ← peekWord '\x00'
  if wordLen == 0 then word self '\x00'
  else do
    let buf ← Run.gets (·.buf)
    if buf.take wordLen ∈ keywords then pure none
    else
      match ← readToken wordLen with
      | none => Run.stop .aborted
      | some (str, range) => pure (some (.string str false false range))

def cmdSuffix (self : Productions) (cmd : SimpleCommand) : Parse (Option SimpleCommand) := do
  match ← ioRedirect self with
  | some redir => pure (some { cmd with ioRedirects := cmd.ioRedirects ++ [redir] })
  | none =>
      match ← word self '\x00' with
      | some arg => pure (some { cmd with arguments := cmd.arguments ++ [arg] })
      | none => pure none

/-- Applies `part` for as long as it reads something. -/
def repeatPart {α : Type} (part : α → Parse (Option α)) : Nat → α → Parse α
  | 0, _ => Run.stop .outOfFuel
  | fuel + 1, value => do
      match ← part value with
      | some value => repeatPart part fuel value
      | none => pure value

def simpleCommand (self : Productions) : Parse (Option SimpleCommand) := do
  let cmd ← repeatPart (cmdPrefix self) self.fuel
    { name := none, arguments := [], ioRedirects := [], assignments := [] }
  let hasPrefix := !cmd.ioRedirects.isEmpty || !cmd.assignments.isEmpty
  match ← cmdName self with
  | none => pure (if hasPrefix then some cmd else none)
  | some name => do
      let cmd ← repeatPart (cmdSuffix self) self.fuel { cmd with name := some name }
      pure (some cmd)

/-! ## Here-documents -/

/-- `push_buffer_word_string` of `parser/program.c`, which records no position. -/
def pushBufferWordString (children : List Word) (buf : Str) : List Word :=
  if buf.isEmpty then children else children ++ [mrshWordStringCreate buf false]

def hereDocumentLineLoop (self : Productions) : Nat → List Word → Str → Parse Word
  | 0, _, _ => Run.stop .outOfFuel
  | fuel + 1, children, buf => do
      let c ← parserPeekChar
      if c == '\x00' then
        match pushBufferWordString children buf with
        | [child] => pure child
        | children => pure (mrshWordListCreate children false)
      else if c == '$' then
        match ← expectDollar self with
        | none => pure .null
        | some child => hereDocumentLineLoop self fuel (pushBufferWordString children buf ++ [child]) []
      else if c == '\x60' then do
        -- A failure is stored as a child.
        let child ← backQuotes self
        hereDocumentLineLoop self fuel
          (pushBufferWordString children buf ++ [child.getD .null]) []
      else do
        let next ← parserPeekAt 1
        let quoted := c == '\\' && (next == '$' || next == '\x60' || next == '\\')
        if quoted then
          let _ ← parserReadChar
        let _ ← parserReadChar
        hereDocumentLineLoop self fuel children (buf ++ [if quoted then next else c])

/-- `here_document_line`, where the result NULL is the word `null`. -/
def hereDocumentLine (self : Productions) : Parse Word := do
  let fuel ← bufferFuel
  hereDocumentLineLoop self fuel [] []

mutual

/-- `is_word_quoted`, which is undefined where the C function aborts. -/
def isWordQuoted : Word → Option Bool
  | .string _ singleQuoted _ _ => some singleQuoted
  | .list children doubleQuoted _ _ => if doubleQuoted then some true else isChildQuoted children
  | _ => none

def isChildQuoted : List Word → Option Bool
  | [] => some false
  | child :: children => do
      if ← isWordQuoted child then some true else isChildQuoted children

end

/-- The text up to the end of the line. -/
def readLine : Nat → Str → Parse Str
  | 0, _ => Run.stop .outOfFuel
  | fuel + 1, buf => do
      let c ← parserPeekChar
      if c == '\x00' || c == '\n' then pure buf
      else do
        let c ← parserReadChar
        readLine fuel (buf ++ [c])

def orAbort {α : Type} (value : Option α) : Parse α :=
  match value with
  | some value => pure value
  | none => Run.stop .aborted

def addHereDocumentLine (redir : IoRedirect) (line : Word) : Parse Unit :=
  Run.modify fun parser => { parser with bodies := parser.bodies ++ [(redir.addr, line)] }

/-- Reads lines up to the delimiter, unless the text ends before it. -/
def hereDocumentLines (self : Productions) (redir : IoRedirect) (expandLines : Bool) (delim : Str) :
    Nat → Parse Bool
  | 0 => Run.stop .outOfFuel
  | fuel + 1 => do
      let lineFuel ← bufferFuel
      let buf ← readLine lineFuel []
      let line := if redir.op == .dlessdash then buf.dropWhile (· == '\t') else buf
      let next ← parserPeekChar
      if line == delim then do
        if next == '\n' then
          let _ ← parserReadChar
        pure true
      else if next == '\x00' then do
        parserSetError "unterminated here-document".toList
        pure false
      else do
        readContinuationLine
        if expandLines then
          let (word, _) ← withSubparser line (hereDocumentLine self)
          addHereDocumentLine redir word
        else addHereDocumentLine redir (mrshWordStringCreate line true)
        hereDocumentLines self redir expandLines delim fuel

def expectHereDocument (self : Productions) (redir : IoRedirect) (delim : Str) : Parse Bool := do
  let quoted ← orAbort (isWordQuoted redir.name)
  Run.modify fun parser => { parser with continuationLine := true }
  let fuel ← bufferFuel
  if ← hereDocumentLines self redir (!quoted) delim fuel then
    consumeSymbol
    pure true
  else pure false

/-- Reads the bodies of the redirections after `before`, until one fails. -/
def expectHereDocuments (self : Productions) (before : Parse Bool) : List IoRedirect → Parse Bool
  | [] => pure true
  | redir :: redirs => do
      if ← before then
        let delim ← orAbort (mrshWordStr redir.name)
        if ← expectHereDocument self redir delim then expectHereDocuments self before redirs
        else pure false
      else pure false

def clearHereDocuments : Parse Unit := Run.modify fun parser => { parser with hereDocuments := [] }

/-! ## Compound commands -/

def separator : Parse (Option Separator) := do
  match ← separatorOp with
  | some sep => do
      linebreak
      pure (some sep)
  | none =>
      if ← newlineList then pure (some .newline) else pure none

def commandListOf (andOrList : AndOrList) (sep : Option Separator) (pos : Position) : CommandList where
  andOrList := andOrList
  ampersand := sep == some .ampersand
  separatorPos := if sep.isSome then pos else .invalid

def term (self : Productions) : Parse (Option CommandList) := do
  match ← self.andOr with
  | none => pure none
  | some andOrList => do
      let separatorPos ← getPos
      let sep ← separator
      let redirs ← Run.gets (·.hereDocuments)
      if sep == some .newline && !redirs.isEmpty then
        if ← expectHereDocuments self (pure true) redirs then
          clearHereDocuments
          pure (some (commandListOf andOrList sep separatorPos))
        else pure none
      else pure (some (commandListOf andOrList sep separatorPos))

/-- The results of `parse` up to the first failure. -/
def collect {α : Type} (parse : Parse (Option α)) : Nat → List α → Parse (List α)
  | 0, _ => Run.stop .outOfFuel
  | fuel + 1, values => do
      match ← parse with
      | some value => collect parse fuel (values ++ [value])
      | none => pure values

/-- The commands, of which there is at least one when `compound_list` succeeds. -/
def compoundList (self : Productions) : Parse (List CommandList) := do
  linebreak
  match ← term self with
  | none => pure []
  | some l => collect (term self) self.fuel [l]

def expectCompoundList (self : Productions) : Parse (Option (List CommandList)) := do
  match ← compoundList self with
  | [] => do
      parserSetError "expected a compound list".toList
      pure none
  | cmds => pure (some cmds)

/-- A compound list between two tokens, with their positions. -/
def groupOf (self : Productions) (opening closing : Str) :
    Parse (Option (List CommandList × Position × Position)) := do
  let openPos ← getPos
  match ← token opening with
  | none => pure none
  | some _ =>
      match ← expectCompoundList self with
      | none => pure none
      | some body => do
          let closePos ← getPos
          match ← expectToken closing with
          | none => pure none
          | some _ => pure (some (body, openPos, closePos))

def braceGroup (self : Productions) : Parse (Option BraceGroup) := do
  match ← groupOf self ['{'] ['}'] with
  | none => pure none
  | some (body, lbracePos, rbracePos) => pure (some { body, lbracePos, rbracePos })

def subshell (self : Productions) : Parse (Option Subshell) := do
  match ← groupOf self ['('] [')'] with
  | none => pure none
  | some (body, lparenPos, rparenPos) => pure (some { body, lparenPos, rparenPos })

/-- The condition, the range of `then` and the body of an `if` or `elif`. -/
def conditionAndBody (self : Productions) :
    Parse (Option (List CommandList × Range × List CommandList)) := do
  match ← expectCompoundList self with
  | none => pure none
  | some cond =>
      match ← expectToken "then".toList with
      | none => pure none
      | some thenRange =>
          match ← expectCompoundList self with
          | none => pure none
          | some body => pure (some (cond, thenRange, body))

def elsePart (self : Productions) : Parse (Option Command) := do
  match ← token "elif".toList with
  | some ifRange =>
      match ← conditionAndBody self with
      | none => pure none
      | some (condition, thenRange, body) => do
          let elsePart ← self.elsePart
          pure (some (.ifClause { condition, body, elsePart, ifRange, thenRange, fiRange := .invalid }))
  | none =>
      match ← token "else".toList with
      | none => pure none
      | some _ =>
          match ← expectCompoundList self with
          | none => pure none
          | some body =>
              pure (some (.braceGroup { body, lbracePos := .invalid, rbracePos := .invalid }))

def ifClause (self : Productions) : Parse (Option IfClause) := do
  match ← token "if".toList with
  | none => pure none
  | some ifRange =>
      match ← conditionAndBody self with
      | none => pure none
      | some (condition, thenRange, body) => do
          let elsePart ← self.elsePart
          match ← expectToken "fi".toList with
          | none => pure none
          | some fiRange => pure (some { condition, body, elsePart, ifRange, thenRange, fiRange })

def sequentialSep : Parse Bool := do
  match ← token [';'] with
  | some _ => do
      linebreak
      pure true
  | none => newlineList

def wordlist (self : Productions) : Parse (List Word) := collect (word self '\x00') self.fuel []

/-- The token, or the given error without it. -/
def tokenOr (str msg : Str) : Parse (Option Range) := do
  match ← token str with
  | some range => pure (some range)
  | none => do
      parserSetError msg
      pure none

def expectDoGroup (self : Productions) : Parse (Option (List CommandList × Range × Range)) := do
  match ← tokenOr "do".toList "expected 'do'".toList with
  | none => pure none
  | some doRange =>
      match ← expectCompoundList self with
      | none => pure none
      | some body =>
          match ← tokenOr "done".toList "expected 'done'".toList with
          | none => pure none
          | some doneRange => pure (some (body, doRange, doneRange))

/-- The words of a `for` clause up to the separator after them. -/
def forWords (self : Productions) (hasIn : Bool) : Parse (Option (List Word)) := do
  if hasIn then
    let words ← wordlist self
    if ← sequentialSep then pure (some words)
    else do
      parserSetError "expected sequential separator".toList
      pure none
  else do
    let _ ← sequentialSep
    pure (some [])

def forClause (self : Productions) : Parse (Option ForClause) := do
  match ← token "for".toList with
  | none => pure none
  | some forRange => do
      let nameLen ← peekName false
      if nameLen == 0 then do
        parserSetError "expected name".toList
        pure none
      else
        match ← readToken nameLen with
        | none => Run.stop .aborted
        | some (name, nameRange) => do
            linebreak
            let inRange ← token "in".toList
            match ← forWords self inRange.isSome with
            | none => pure none
            | some wordList =>
                match ← expectDoGroup self with
                | none => pure none
                | some (body, doRange, doneRange) =>
                    pure (some { name, hasIn := inRange.isSome, wordList, body, forRange, nameRange,
                                 inRange := inRange.getD .invalid, doRange, doneRange })

def loopType : Parse (Option (LoopType × Range)) := do
  match ← token "while".toList with
  | some range => pure (some (.while, range))
  | none =>
      match ← token "until".toList with
      | some range => pure (some (.until, range))
      | none => pure none

def loopClause (self : Productions) : Parse (Option LoopClause) := do
  match ← loopType with
  | none => pure none
  | some (type, whileUntilRange) =>
      match ← expectCompoundList self with
      | none => pure none
      | some condition =>
          match ← expectDoGroup self with
          | none => pure none
          | some (body, doRange, doneRange) =>
              pure (some { type, condition, body, whileUntilRange, doRange, doneRange })

def expectWord (self : Productions) : Parse (Option Word) := do
  match ← word self '\x00' with
  | some word => pure (some word)
  | none => do
      parserSetError "expected a word".toList
      pure none

/-- The patterns after the first one. -/
def morePatterns (self : Productions) : Nat → List Word → Parse (Option (List Word))
  | 0, _ => Run.stop .outOfFuel
  | fuel + 1, patterns => do
      match ← token ['|'] with
      | none => pure (some patterns)
      | some _ =>
          match ← expectWord self with
          | none => pure none
          | some word => morePatterns self fuel (patterns ++ [word])

def casePatterns (self : Productions) : Parse (Option (List Word)) := do
  match ← expectWord self with
  | none => pure none
  | some word => morePatterns self self.fuel [word]

/-- The item and whether it ends with `;;`. -/
def expectCaseItem (self : Productions) : Parse (Option (CaseItem × Bool)) := do
  let pos ← getPos
  let lparen ← token ['(']
  let lparenPos := if lparen.isSome then pos else .invalid
  match ← casePatterns self with
  | none => pure none
  | some patterns => do
      let rparenPos ← getPos
      match ← expectToken [')'] with
      | none => pure none
      | some _ => do
          let body ← compoundList self
          match ← mrshParserError with
          | some _ => pure none
          | none => do
              let dsemi ← operator .dsemi
              if dsemi.isSome then linebreak
              let addr ← newAddress
              pure (some ({ addr, patterns, body, lparenPos, rparenPos,
                            dsemiRange := dsemi.getD .invalid }, dsemi.isSome))

/-- The items up to `esac`, and its range. -/
def caseItems (self : Productions) : Nat → List CaseItem → Parse (Option (List CaseItem × Range))
  | 0, _ => Run.stop .outOfFuel
  | fuel + 1, items => do
      match ← token "esac".toList with
      | some esacRange => pure (some (items, esacRange))
      | none =>
          match ← expectCaseItem self with
          | none => pure none
          | some (item, true) => caseItems self fuel (items ++ [item])
          | some (item, false) =>
              match ← expectToken "esac".toList with
              | none => pure none
              | some esacRange => pure (some (items ++ [item], esacRange))

def caseClause (self : Productions) : Parse (Option CaseClause) := do
  match ← token "case".toList with
  | none => pure none
  | some caseRange =>
      match ← expectWord self with
      | none => pure none
      | some word => do
          linebreak
          match ← expectToken "in".toList with
          | none => pure none
          | some inRange => do
              linebreak
              match ← caseItems self self.fuel [] with
              | none => pure none
              | some (items, esacRange) => pure (some { word, items, caseRange, inRange, esacRange })

/-- Whether a parenthesis follows the name, after any blanks. -/
def parenFollows (afterName : Str) : Bool :=
  (afterName.dropWhile isBlank).head? == some '('

def functionDefinition (self : Productions) : Parse (Option FunctionDefinition) := do
  let nameLen ← peekName false
  let buf ← Run.gets (·.buf)
  if nameLen == 0 || !parenFollows (buf.drop nameLen) then pure none
  else
    match ← readToken nameLen with
    | none => Run.stop .aborted
    | some (name, nameRange) => do
        let lparenPos ← getPos
        match ← expectToken ['('] with
        | none => pure none
        | some _ => do
            let rparenPos ← getPos
            match ← expectToken [')'] with
            | none => pure none
            | some _ => do
                linebreak
                match ← self.compoundCommand with
                | none => do
                    parserSetError "expected a compound command".toList
                    pure none
                | some body => do
                    let ioRedirects ← collect (ioRedirect self) self.fuel []
                    pure (some { name, body, ioRedirects, nameRange, lparenPos, rparenPos })

def reservedWords : List Str :=
  ["[[".toList, "]]".toList, "function".toList, "select".toList]

def unspecifiedWord : Parse Bool := do
  let wordLen ← peekWord '\x00'
  if wordLen == 0 then pure false
  else do
    let buf ← Run.gets (·.buf)
    if buf.take wordLen ∈ reservedWords then do
      parserSetError ("keyword is reserved and causes unspecified results: ".toList ++ buf.take wordLen)
      pure true
    else do
      let nameLen ← peekName false
      let next ← parserPeekAt nameLen
      if nameLen != 0 && next == ':' then do
        parserSetError
          "words that are the concatenation of a name and a colon produce unspecified results".toList
        pure true
      else pure false

/-- The first alternative that yields a command. An error in one ends the search. -/
def firstCommand : List (Parse (Option Command)) → Parse (Option Command)
  | [] => pure none
  | parse :: rest => do
      match ← parse with
      | some cmd => pure (some cmd)
      | none =>
          match ← mrshParserError with
          | some _ => pure none
          | none => firstCommand rest

def functionCommand (self : Productions) : Parse (Option Command) := do
  if ← unspecifiedWord then pure none
  else do
    let fd ← functionDefinition self
    pure (fd.map .functionDefinition)

def compoundCommand (self : Productions) : Parse (Option Command) :=
  firstCommand
    [do pure ((← braceGroup self).map .braceGroup), do pure ((← subshell self).map .subshell),
     do pure ((← ifClause self).map .ifClause), do pure ((← forClause self).map .forClause),
     do pure ((← loopClause self).map .loopClause), do pure ((← caseClause self).map .caseClause),
     functionCommand self]

def command (self : Productions) : Parse (Option Command) := do
  applyAliases self
  match ← compoundCommand self with
  | some cmd => pure (some cmd)
  | none =>
      match ← mrshParserError with
      | some _ => pure none
      | none => do
          let sc ← simpleCommand self
          pure (sc.map .simpleCommand)

/-! ## Lists -/

def moreCommands (self : Productions) : Nat → List Command → Parse (Option (List Command))
  | 0, _ => Run.stop .outOfFuel
  | fuel + 1, commands => do
      match ← token ['|'] with
      | none => pure (some commands)
      | some _ => do
          linebreak
          match ← command self with
          | none => do
              parserSetError "expected a command".toList
              pure none
          | some cmd => moreCommands self fuel (commands ++ [cmd])

def pipeline (self : Productions) : Parse (Option Pipeline) := do
  let bang ← token ['!']
  match ← command self with
  | none => pure none
  | some cmd =>
      match ← moreCommands self self.fuel [cmd] with
      | none => pure none
      | some commands =>
          pure (some { commands, bang := bang.isSome, bangPos := (bang.getD .invalid).begin })

def binopType : Parse (Option (BinopType × Range)) := do
  match ← operator .andIf with
  | some range => pure (some (.and, range))
  | none =>
      match ← operator .orIf with
      | some range => pure (some (.or, range))
      | none => pure none

def andOr (self : Productions) : Parse (Option AndOrList) := do
  match ← pipeline self with
  | none => pure none
  | some pl =>
      match ← binopType with
      | none => pure (some (.pipeline pl))
      | some (type, opRange) => do
          linebreak
          match ← self.andOr with
          | none => do
              parserSetError "expected an AND-OR list".toList
              pure none
          | some andOrList => pure (some (.binop type (.pipeline pl) andOrList opRange))

def list (self : Productions) : Parse (Option CommandList) := do
  match ← self.andOr with
  | none => pure none
  | some andOrList => do
      let separatorPos ← getPos
      let sep ← separatorOp
      pure (some (commandListOf andOrList sep separatorPos))

/-- A newline before a here-document. -/
def hereDocumentNewline : Parse Bool := do
  if ← newline then pure true
  else do
    parserSetError "expected a newline followed by a here-document".toList
    pure false

/-- The commands that were read, and whether `complete_command` succeeds. -/
def completeCommand (self : Productions) : Parse (List CommandList × Bool) := do
  match ← list self with
  | none => pure ([], false)
  | some l => do
      let cmds ← collect (list self) self.fuel [l]
      let redirs ← Run.gets (·.hereDocuments)
      if redirs.isEmpty then pure (cmds, true)
      else if ← expectHereDocuments self hereDocumentNewline redirs then
        clearHereDocuments
        pure (cmds, true)
      else pure (cmds, false)

def expectCompleteCommand (self : Productions) : Parse (Option (List CommandList)) := do
  match ← completeCommand self with
  | (cmds, true) => pure (some cmds)
  | (_, false) => do
      parserSetError "expected a complete command".toList
      pure none

/-- The commands of the lines after the first one. A line that fails keeps the
commands that were read before the failure. -/
def programLines (self : Productions) : Nat → List CommandList → Parse (List CommandList)
  | 0, _ => Run.stop .outOfFuel
  | fuel + 1, body => do
      if ← newlineList then
        if ← eof then pure body
        else
          match ← completeCommand self with
          | (cmds, true) => programLines self fuel (body ++ cmds)
          | (cmds, false) => do
              linebreak
              pure (body ++ cmds)
      else do
        linebreak
        pure body

def program (self : Productions) : Parse (Option Program) := do
  linebreak
  if ← eof then pure (some ⟨[]⟩)
  else
    match ← expectCompleteCommand self with
    | none => pure none
    | some body => do
        let body ← programLines self self.fuel body
        pure (some ⟨body⟩)

/-- Consumes the rest of the line. -/
def skipLine : Nat → Parse Unit
  | 0 => Run.stop .outOfFuel
  | fuel + 1 => do
      let c ← parserPeekChar
      if c == '\x00' then pure ()
      else do
        let _ ← parserReadChar
        if c == '\n' then pure () else skipLine fuel

def parseLineError : Parse (Option Program) := do
  let fuel ← bufferFuel
  skipLine fuel
  consumeSymbol
  pure none

def parseLine (self : Productions) : Parse (Option Program) := do
  parserBegin
  if ← eof then pure none
  else if ← newline then pure (some ⟨[]⟩)
  else
    match ← expectCompleteCommand self with
    | none => parseLineError
    | some body => do
        let ended ← eof
        let ended ← if ended then pure true else newline
        if ended then pure (some ⟨body⟩)
        else do
          parserSetError "expected a newline".toList
          parseLineError

def parseProgram (self : Productions) : Parse (Option Program) := do
  parserBegin
  program self

/-! ## The recursion -/

def Productions.exhausted : Productions where
  fuel := 0
  word _ := Run.stop .outOfFuel
  arithmeticWord _ := Run.stop .outOfFuel
  mrshParseProgram := Run.stop .outOfFuel
  andOr := Run.stop .outOfFuel
  elsePart := Run.stop .outOfFuel
  compoundCommand := Run.stop .outOfFuel

def productions : Nat → Productions
  | 0 => .exhausted
  | fuel + 1 =>
      let self := productions fuel
      { fuel
        word := word self
        arithmeticWord := arithmeticWord self
        mrshParseProgram := parseProgram self
        andOr := andOr self
        elsePart := elsePart self
        compoundCommand := compoundCommand self }

/-- The lines that were added to the redirection. -/
def hereDocumentOf (parser : Parser) (addr : Address) : List Word :=
  (parser.bodies.filter (·.1 == addr)).map Prod.snd

/-- The tree as the caller of the parser sees it. -/
def withHereDocuments (parse : Parse (Option Program)) : Parse (Option Program) := do
  let prog ← parse
  let parser ← Run.get
  pure (prog.map (fillProgram (hereDocumentOf parser)))

def mrshParseLine (fuel : Nat) : Parse (Option Program) :=
  withHereDocuments (parseLine (productions fuel))

def mrshParseProgram (fuel : Nat) : Parse (Option Program) :=
  withHereDocuments (parseProgram (productions fuel))

end Mrsh
