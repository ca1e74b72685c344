import Mathlib.Data.List.Basic

namespace Mrsh

/-! # The syntax tree

The node types of `include/mrsh/ast.h`. A C string is its list of characters,
an array is a list and a pointer that may be NULL is an `Option`; the one
exception is a NULL child of a word array, which is the word `null`.

Two kinds of node are written to after they were built: the parser fills the
`here_document` array of a redirection when it reads the body, and the runner
of case clauses expands the patterns of an item in place. Such nodes carry the
address that identifies them.
-/

abbrev Str := List Char

instance : LawfulBEq Str := inferInstance

/-- The nodes of a parsed tree are numbered in the order of their allocation,
those of a copy by the number of the copy and the address of the original. -/
inductive Address where
  | parsed (number : Nat)
  | copy (generation : Nat) (original : Address)
deriving Repr, DecidableEq, Inhabited

/-- `offset` starts at 0, `line` and `column` start at 1. A position whose line
is 0 is invalid. -/
structure Position where
  offset : Nat
  line : Nat
  column : Nat
deriving Repr, DecidableEq, Inhabited

def Position.invalid : Position := ⟨0, 0, 0⟩

def Position.valid (pos : Position) : Bool := 0 < pos.line

structure Range where
  begin : Position
  finish : Position
deriving Repr, DecidableEq, Inhabited

def Range.invalid : Range := ⟨.invalid, .invalid⟩

inductive ParameterOp where
  | none | minus | equal | qmark | plus
  | leadingHash | percent | dpercent | hash | dhash
deriving Repr, DecidableEq, Inhabited

inductive IoRedirectOp where
  | less | great | clobber | dgreat | lessand | greatand | lessgreat | dless | dlessdash
deriving Repr, DecidableEq, Inhabited

inductive LoopType where
  | while | until
deriving Repr, DecidableEq, Inhabited

inductive BinopType where
  | and | or
deriving Repr, DecidableEq, Inhabited

mutual

inductive Word where
  | string (str : Str) (singleQuoted splitFields : Bool) (range : Range)
  | parameter (wp : WordParameter)
  | command (program : Option Program) (backQuoted : Bool) (range : Range)
  | arithmetic (body : Word)
  | list (children : List Word) (doubleQuoted : Bool) (lquotePos rquotePos : Position)
  | null

structure WordParameter where
  name : Str
  op : ParameterOp
  colon : Bool
  arg : Option Word
  dollarPos : Position
  nameRange : Range
  opRange : Range
  lbracePos : Position
  rbracePos : Position

structure IoRedirect where
  addr : Address
  ioNumber : Int
  op : IoRedirectOp
  name : Word
  hereDocument : List Word
  ioNumberPos : Position
  opRange : Range

structure Assignment where
  name : Str
  value : Word
  nameRange : Range
  equalPos : Position

structure SimpleCommand where
  name : Option Word
  arguments : List Word
  ioRedirects : List IoRedirect
  assignments : List Assignment

structure BraceGroup where
  body : List CommandList
  lbracePos : Position
  rbracePos : Position

structure Subshell where
  body : List CommandList
  lparenPos : Position
  rparenPos : Position

structure IfClause where
  condition : List CommandList
  body : List CommandList
  elsePart : Option Command
  ifRange : Range
  thenRange : Range
  fiRange : Range

structure ForClause where
  name : Str
  hasIn : Bool
  wordList : List Word
  body : List CommandList
  forRange : Range
  nameRange : Range
  inRange : Range
  doRange : Range
  doneRange : Range

structure LoopClause where
  type : LoopType
  condition : List CommandList
  body : List CommandList
  whileUntilRange : Range
  doRange : Range
  doneRange : Range

structure CaseItem where
  addr : Address
  patterns : List Word
  body : List CommandList
  lparenPos : Position
  rparenPos : Position
  dsemiRange : Range

structure CaseClause where
  word : Word
  items : List CaseItem
  caseRange : Range
  inRange : Range
  esacRange : Range

structure FunctionDefinition where
  name : Str
  body : Command
  ioRedirects : List IoRedirect
  nameRange : Range
  lparenPos : Position
  rparenPos : Position

inductive Command where
  | simpleCommand (sc : SimpleCommand)
  | braceGroup (bg : BraceGroup)
  | subshell (s : Subshell)
  | ifClause (ic : IfClause)
  | forClause (fc : ForClause)
  | loopClause (lc : LoopClause)
  | caseClause (cc : CaseClause)
  | functionDefinition (fd : FunctionDefinition)

structure Pipeline where
  commands : List Command
  bang : Bool
  bangPos : Position

inductive AndOrList where
  | pipeline (pl : Pipeline)
  | binop (type : BinopType) (left right : AndOrList) (opRange : Range)

structure CommandList where
  andOrList : AndOrList
  ampersand : Bool
  separatorPos : Position

structure Program where
  body : List CommandList

end

instance : Inhabited Word := ⟨.null⟩

/-! ## Here-documents

`fill` puts the lines of here-documents into the redirections of a tree.
-/

section

variable (lines : Address → List Word)

mutual

def fillWord : Word → Word
  | .string str singleQuoted splitFields range => .string str singleQuoted splitFields range
  | .parameter wp => .parameter (fillParameter wp)
  | .command none backQuoted range => .command none backQuoted range
  | .command (some program) backQuoted range => .command (some (fillProgram program)) backQuoted range
  | .arithmetic body => .arithmetic (fillWord body)
  | .list children doubleQuoted lquotePos rquotePos =>
      .list (fillWords children) doubleQuoted lquotePos rquotePos
  | .null => .null

def fillWords : List Word → List Word
  | [] => []
  | word :: words => fillWord word :: fillWords words

def fillParameter : WordParameter → WordParameter
  | { name, op, colon, arg := none, dollarPos, nameRange, opRange, lbracePos, rbracePos } =>
      { name, op, colon, arg := none, dollarPos, nameRange, opRange, lbracePos, rbracePos }
  | { name, op, colon, arg := some arg, dollarPos, nameRange, opRange, lbracePos, rbracePos } =>
      { name, op, colon, arg := some (fillWord arg), dollarPos, nameRange, opRange, lbracePos,
        rbracePos }

def fillRedirect : IoRedirect → IoRedirect
  | { addr, ioNumber, op, name, hereDocument, ioNumberPos, opRange } =>
      { addr, ioNumber, op, name := fillWord name, hereDocument := hereDocument ++ lines addr,
        ioNumberPos, opRange }

def fillRedirects : List IoRedirect → List IoRedirect
  | [] => []
  | redir :: redirs => fillRedirect redir :: fillRedirects redirs

def fillAssignment : Assignment → Assignment
  | { name, value, nameRange, equalPos } => { name, value := fillWord value, nameRange, equalPos }

def fillAssignments : List Assignment → List Assignment
  | [] => []
  | assign :: assigns => fillAssignment assign :: fillAssignments assigns

def fillSimpleCommand : SimpleCommand → SimpleCommand
  | { name := none, arguments, ioRedirects, assignments } =>
      { name := none, arguments := fillWords arguments, ioRedirects := fillRedirects ioRedirects,
        assignments := fillAssignments assignments }
  | { name := some name, arguments, ioRedirects, assignments } =>
      { name := some (fillWord name), arguments := fillWords arguments,
        ioRedirects := fillRedirects ioRedirects, assignments := fillAssignments assignments }

def fillBraceGroup : BraceGroup → BraceGroup
  | { body, lbracePos, rbracePos } => { body := fillLists body, lbracePos, rbracePos }

def fillSubshell : Subshell → Subshell
  | { body, lparenPos, rparenPos } => { body := fillLists body, lparenPos, rparenPos }

def fillIfClause : IfClause → IfClause
  | { condition, body, elsePart := none, ifRange, thenRange, fiRange } =>
      { condition := fillLists condition, body := fillLists body, elsePart := none, ifRange,
        thenRange, fiRange }
  | { condition, body, elsePart := some elsePart, ifRange, thenRange, fiRange } =>
      { condition := fillLists condition, body := fillLists body,
        elsePart := some (fillCommand elsePart), ifRange, thenRange, fiRange }

def fillForClause : ForClause → ForClause
  | { name, hasIn, wordList, body, forRange, nameRange, inRange, doRange, doneRange } =>
      { name, hasIn, wordList := fillWords wordList, body := fillLists body, forRange, nameRange,
        inRange, doRange, doneRange }

def fillLoopClause : LoopClause → LoopClause
  | { type, condition, body, whileUntilRange, doRange, doneRange } =>
      { type, condition := fillLists condition, body := fillLists body, whileUntilRange, doRange,
        doneRange }

def fillCaseItem : CaseItem → CaseItem
  | { addr, patterns, body, lparenPos, rparenPos, dsemiRange } =>
      { addr, patterns := fillWords patterns, body := fillLists body, lparenPos, rparenPos, dsemiRange }

def fillCaseItems : List CaseItem → List CaseItem
  | [] => []
  | item :: items => fillCaseItem item :: fillCaseItems items

def fillCaseClause : CaseClause → CaseClause
  | { word, items, caseRange, inRange, esacRange } =>
      { word := fillWord word, items := fillCaseItems items, caseRange, inRange, esacRange }

def fillFunctionDefinition : FunctionDefinition → FunctionDefinition
  | { name, body, ioRedirects, nameRange, lparenPos, rparenPos } =>
      { name, body := fillCommand body, ioRedirects := fillRedirects ioRedirects, nameRange,
        lparenPos, rparenPos }

def fillCommand : Command → Command
  | .simpleCommand sc => .simpleCommand (fillSimpleCommand sc)
  | .braceGroup bg => .braceGroup (fillBraceGroup bg)
  | .subshell ss => .subshell (fillSubshell ss)
  | .ifClause ic => .ifClause (fillIfClause ic)
  | .forClause fc => .forClause (fillForClause fc)
  | .loopClause lc => .loopClause (fillLoopClause lc)
  | .caseClause cc => .caseClause (fillCaseClause cc)
  | .functionDefinition fd => .functionDefinition (fillFunctionDefinition fd)

def fillCommands : List Command → List Command
  | [] => []
  | cmd :: cmds => fillCommand cmd :: fillCommands cmds

def fillPipeline : Pipeline → Pipeline
  | { commands, bang, bangPos } => { commands := fillCommands commands, bang, bangPos }

def fillAndOrList : AndOrList → AndOrList
  | .pipeline pl => .pipeline (fillPipeline pl)
  | .binop type left right opRange => .binop type (fillAndOrList left) (fillAndOrList right) opRange

def fillList : CommandList → CommandList
  | { andOrList, ampersand, separatorPos } =>
      { andOrList := fillAndOrList andOrList, ampersand, separatorPos }

def fillLists : List CommandList → List CommandList
  | [] => []
  | l :: ls => fillList l :: fillLists ls

def fillProgram : Program → Program
  | { body } => { body := fillLists body }

end

end

/-! ## Text of a word -/

mutual

/-- `mrsh_word_str`, which is undefined where the C function aborts. -/
def mrshWordStr : Word → Option Str
  | .string str _ _ _ => some str
  | .parameter _ => none
  | .command _ _ _ => none
  | .arithmetic _ => none
  | .list children _ _ _ => wordsStr children
  | .null => none

def wordsStr : List Word → Option Str
  | [] => some []
  | child :: children => do
      let str ← mrshWordStr child
      let rest ← wordsStr children
      pure (str ++ rest)

end

/-! ## Copies

A copy loses every position and the `split_fields` flag of its strings. Copying
through a NULL pointer crashes, which is the result `none`.
-/

section

variable (generation : Nat)

mutual

def mrshWordCopy : Word → Option Word
  | .string str singleQuoted _ _ => some (.string str singleQuoted false .invalid)
  | .parameter wp => do
      let wp ← wordParameterCopy wp
      pure (.parameter wp)
  | .command none _ _ => none
  | .command (some program) backQuoted _ => do
      let program ← mrshProgramCopy program
      pure (.command (some program) backQuoted .invalid)
  | .arithmetic body => do
      let body ← mrshWordCopy body
      pure (.arithmetic body)
  | .list children doubleQuoted _ _ => do
      let children ← wordArrayCopy children
      pure (.list children doubleQuoted .invalid .invalid)
  | .null => none

def wordArrayCopy : List Word → Option (List Word)
  | [] => some []
  | word :: words => do
      let word ← mrshWordCopy word
      let words ← wordArrayCopy words
      pure (word :: words)

def wordParameterCopy : WordParameter → Option WordParameter
  | { name, op, colon, arg := none, .. } =>
      some { name, op, colon, arg := none, dollarPos := .invalid, nameRange := .invalid,
             opRange := .invalid, lbracePos := .invalid, rbracePos := .invalid }
  | { name, op, colon, arg := some arg, .. } => do
      let arg ← mrshWordCopy arg
      pure { name, op, colon, arg := some arg, dollarPos := .invalid, nameRange := .invalid,
             opRange := .invalid, lbracePos := .invalid, rbracePos := .invalid }

def mrshIoRedirectCopy : IoRedirect → Option IoRedirect
  | { addr, ioNumber, op, name, hereDocument, .. } => do
      let name ← mrshWordCopy name
      let hereDocument ← wordArrayCopy hereDocument
      pure { addr := .copy generation addr, ioNumber, op, name, hereDocument,
             ioNumberPos := .invalid, opRange := .invalid }

def ioRedirectArrayCopy : List IoRedirect → Option (List IoRedirect)
  | [] => some []
  | redir :: redirs => do
      let redir ← mrshIoRedirectCopy redir
      let redirs ← ioRedirectArrayCopy redirs
      pure (redir :: redirs)

def mrshAssignmentCopy : Assignment → Option Assignment
  | { name, value, .. } => do
      let value ← mrshWordCopy value
      pure { name, value, nameRange := .invalid, equalPos := .invalid }

def assignmentArrayCopy : List Assignment → Option (List Assignment)
  | [] => some []
  | assign :: assigns => do
      let assign ← mrshAssignmentCopy assign
      let assigns ← assignmentArrayCopy assigns
      pure (assign :: assigns)

def simpleCommandCopy : SimpleCommand → Option SimpleCommand
  | { name := none, arguments, ioRedirects, assignments } => do
      let arguments ← wordArrayCopy arguments
      let ioRedirects ← ioRedirectArrayCopy ioRedirects
      let assignments ← assignmentArrayCopy assignments
      pure { name := none, arguments, ioRedirects, assignments }
  | { name := some name, arguments, ioRedirects, assignments } => do
      let name ← mrshWordCopy name
      let arguments ← wordArrayCopy arguments
      let ioRedirects ← ioRedirectArrayCopy ioRedirects
      let assignments ← assignmentArrayCopy assignments
      pure { name := some name, arguments, ioRedirects, assignments }

def braceGroupCopy : BraceGroup → Option BraceGroup
  | { body, .. } => do
      let body ← commandListArrayCopy body
      pure { body, lbracePos := .invalid, rbracePos := .invalid }

def subshellCopy : Subshell → Option Subshell
  | { body, .. } => do
      let body ← commandListArrayCopy body
      pure { body, lparenPos := .invalid, rparenPos := .invalid }

def ifClauseCopy : IfClause → Option IfClause
  | { condition, body, elsePart := none, .. } => do
      let condition ← commandListArrayCopy condition
      let body ← commandListArrayCopy body
      pure { condition, body, elsePart := none, ifRange := .invalid, thenRange := .invalid,
             fiRange := .invalid }
  | { condition, body, elsePart := some elsePart, .. } => do
      let condition ← commandListArrayCopy condition
      let body ← commandListArrayCopy body
      let elsePart ← mrshCommandCopy elsePart
      pure { condition, body, elsePart := some elsePart, ifRange := .invalid,
             thenRange := .invalid, fiRange := .invalid }

def forClauseCopy : ForClause → Option ForClause
  | { name, hasIn, wordList, body, .. } => do
      let wordList ← wordArrayCopy wordList
      let body ← commandListArrayCopy body
      pure { name, hasIn, wordList, body, forRange := .invalid, nameRange := .invalid,
             inRange := .invalid, doRange := .invalid, doneRange := .invalid }

def loopClauseCopy : LoopClause → Option LoopClause
  | { type, condition, body, .. } => do
      let condition ← commandListArrayCopy condition
      let body ← commandListArrayCopy body
      pure { type, condition, body, whileUntilRange := .invalid, doRange := .invalid,
             doneRange := .invalid }

def caseItemCopy : CaseItem → Option CaseItem
  | { addr, patterns, body, .. } => do
      let patterns ← wordArrayCopy patterns
      let body ← commandListArrayCopy body
      pure { addr := .copy generation addr, patterns, body, lparenPos := .invalid,
             rparenPos := .invalid, dsemiRange := .invalid }

def caseItemArrayCopy : List CaseItem → Option (List CaseItem)
  | [] => some []
  | item :: items => do
      let item ← caseItemCopy item
      let items ← caseItemArrayCopy items
      pure (item :: items)

def caseClauseCopy : CaseClause → Option CaseClause
  | { word, items, .. } => do
      let items ← caseItemArrayCopy items
      let word ← mrshWordCopy word
      pure { word, items, caseRange := .invalid, inRange := .invalid, esacRange := .invalid }

def functionDefinitionCopy : FunctionDefinition → Option FunctionDefinition
  | { name, body, ioRedirects, .. } => do
      let ioRedirects ← ioRedirectArrayCopy ioRedirects
      let body ← mrshCommandCopy body
      pure { name, body, ioRedirects, nameRange := .invalid, lparenPos := .invalid, rparenPos := .invalid }

def mrshCommandCopy : Command → Option Command
  | .simpleCommand sc => do pure (.simpleCommand (← simpleCommandCopy sc))
  | .braceGroup bg => do pure (.braceGroup (← braceGroupCopy bg))
  | .subshell ss => do pure (.subshell (← subshellCopy ss))
  | .ifClause ic => do pure (.ifClause (← ifClauseCopy ic))
  | .forClause fc => do pure (.forClause (← forClauseCopy fc))
  | .loopClause lc => do pure (.loopClause (← loopClauseCopy lc))
  | .caseClause cc => do pure (.caseClause (← caseClauseCopy cc))
  | .functionDefinition fd => do pure (.functionDefinition (← functionDefinitionCopy fd))

def commandArrayCopy : List Command → Option (List Command)
  | [] => some []
  | cmd :: cmds => do
      let cmd ← mrshCommandCopy cmd
      let cmds ← commandArrayCopy cmds
      pure (cmd :: cmds)

def pipelineCopy : Pipeline → Option Pipeline
  | { commands, bang, .. } => do
      let commands ← commandArrayCopy commands
      pure { commands, bang, bangPos := .invalid }

def mrshAndOrListCopy : AndOrList → Option AndOrList
  | .pipeline pl => do pure (.pipeline (← pipelineCopy pl))
  | .binop type left right _ => do
      let left ← mrshAndOrListCopy left
      let right ← mrshAndOrListCopy right
      pure (.binop type left right .invalid)

def mrshCommandListCopy : CommandList → Option CommandList
  | { andOrList, ampersand, .. } => do
      let andOrList ← mrshAndOrListCopy andOrList
      pure { andOrList, ampersand, separatorPos := .invalid }

def commandListArrayCopy : List CommandList → Option (List CommandList)
  | [] => some []
  | l :: ls => do
      let l ← mrshCommandListCopy l
      let ls ← commandListArrayCopy ls
      pure (l :: ls)

def mrshProgramCopy : Program → Option Program
  | { body } => do
      let body ← commandListArrayCopy body
      pure { body }

end

end

end Mrsh
