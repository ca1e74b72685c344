import Mrsh.Ast

namespace Mrsh

/-! # The ranges in a tree

The ranges that the parser records in the nodes of a command.
-/

/-- A range of a node. It is apart if another parser read the node, which counts from
the start of its own text: one for back quotes or for a line of a here-document. -/
structure NodeRange where
  range : Range
  apart : Bool

/-- The range, unless it was left unset. -/
def recorded (range : Range) : List NodeRange := if range.begin.valid then [⟨range, false⟩] else []

def readApart (nodes : List NodeRange) : List NodeRange := nodes.map fun node => ⟨node.range, true⟩

mutual

def wordRanges : Word → List NodeRange
  | .string _ _ _ range => recorded range
  | .parameter { arg := none, nameRange, opRange, .. } => recorded nameRange ++ recorded opRange
  | .parameter { arg := some arg, nameRange, opRange, .. } =>
      recorded nameRange ++ recorded opRange ++ wordRanges arg
  | .command none _ range => recorded range
  | .command (some { body }) backQuoted range =>
      recorded range ++ if backQuoted then readApart (listsRanges body) else listsRanges body
  | .arithmetic body => wordRanges body
  | .list children _ _ _ => wordsRanges children
  | .null => []

def wordsRanges : List Word → List NodeRange
  | [] => []
  | word :: words => wordRanges word ++ wordsRanges words

def redirectsRanges : List IoRedirect → List NodeRange
  | [] => []
  | { name, hereDocument, opRange, .. } :: redirs =>
      recorded opRange ++ wordRanges name ++ readApart (wordsRanges hereDocument) ++ redirectsRanges redirs

def assignmentsRanges : List Assignment → List NodeRange
  | [] => []
  | { value, nameRange, .. } :: assigns => recorded nameRange ++ wordRanges value ++ assignmentsRanges assigns

def caseItemsRanges : List CaseItem → List NodeRange
  | [] => []
  | { patterns, body, dsemiRange, .. } :: items =>
      wordsRanges patterns ++ listsRanges body ++ recorded dsemiRange ++ caseItemsRanges items

/-- The ranges that are recorded inside a command. -/
def commandRanges : Command → List NodeRange
  | .simpleCommand { name := none, arguments, ioRedirects, assignments } =>
      wordsRanges arguments ++ redirectsRanges ioRedirects ++ assignmentsRanges assignments
  | .simpleCommand { name := some name, arguments, ioRedirects, assignments } =>
      wordRanges name ++ wordsRanges arguments ++ redirectsRanges ioRedirects ++ assignmentsRanges assignments
  | .braceGroup { body, .. } => listsRanges body
  | .subshell { body, .. } => listsRanges body
  | .ifClause { condition, body, elsePart := none, ifRange, thenRange, fiRange } =>
      recorded ifRange ++ listsRanges condition ++ recorded thenRange ++ listsRanges body ++ recorded fiRange
  | .ifClause { condition, body, elsePart := some elsePart, ifRange, thenRange, fiRange } =>
      recorded ifRange ++ listsRanges condition ++ recorded thenRange ++ listsRanges body ++ commandRanges elsePart ++
        recorded fiRange
  | .forClause { wordList, body, forRange, nameRange, inRange, doRange, doneRange, .. } =>
      recorded forRange ++ recorded nameRange ++ recorded inRange ++ wordsRanges wordList ++ recorded doRange ++
        listsRanges body ++ recorded doneRange
  | .loopClause { condition, body, whileUntilRange, doRange, doneRange, .. } =>
      recorded whileUntilRange ++ listsRanges condition ++ recorded doRange ++ listsRanges body ++ recorded doneRange
  | .caseClause { word, items, caseRange, inRange, esacRange } =>
      recorded caseRange ++ wordRanges word ++ recorded inRange ++ caseItemsRanges items ++ recorded esacRange
  | .functionDefinition { body, ioRedirects, nameRange, .. } =>
      recorded nameRange ++ commandRanges body ++ redirectsRanges ioRedirects

def commandsRanges : List Command → List NodeRange
  | [] => []
  | cmd :: cmds => commandRanges cmd ++ commandsRanges cmds

def andOrListRanges : AndOrList → List NodeRange
  | .pipeline { commands, .. } => commandsRanges commands
  | .binop _ left right opRange => andOrListRanges left ++ recorded opRange ++ andOrListRanges right

def listsRanges : List CommandList → List NodeRange
  | [] => []
  | { andOrList, .. } :: ls => andOrListRanges andOrList ++ listsRanges ls

end

end Mrsh
