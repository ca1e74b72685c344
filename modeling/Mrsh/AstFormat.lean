import Mrsh.Ast

namespace Mrsh

/-! # Printing of trees

`mrsh_node_format` of `ast.c`. A node that is NULL makes it crash, which is the
result `none`.
-/

def concatStrs (parts : List (Option Str)) : Option Str :=
  parts.foldr (fun part rest => do
    let part ← part
    let rest ← rest
    some (part ++ rest)) (some [])

def joinStrs (sep : Str) (parts : List Str) : Str := sep.intercalate parts

def binopTypeStr : BinopType → Str
  | .and => ['&', '&']
  | .or => ['|', '|']

mutual

def formatWord : Word → Option Str
  | .string str singleQuoted _ _ =>
      let quote := if singleQuoted then ['\''] else []
      some (quote ++ str ++ quote)
  | .parameter wp => formatParameter wp
  | .command none backQuoted _ =>
      some (if backQuoted then ['\x60', '\x60'] else ['$', '(', ')'])
  | .command (some program) backQuoted _ =>
      concatStrs [some (if backQuoted then ['\x60'] else ['$', '(']), formatProgram program,
        some (if backQuoted then ['\x60'] else [')'])]
  | .arithmetic body => formatWord body
  | .list children doubleQuoted _ _ =>
      let quote := if doubleQuoted then ['"'] else []
      concatStrs [some quote, (formatWords children).map (joinStrs []), some quote]
  | .null => none

def formatWords : List Word → Option (List Str)
  | [] => some []
  | word :: words => do
      let word ← formatWord word
      let words ← formatWords words
      some (word :: words)

def formatParameter : WordParameter → Option Str
  | { arg := none, .. } => some ['$', '{', '}']
  | { arg := some arg, .. } => concatStrs [some ['$', '{'], formatWord arg, some ['}']]

def formatSimpleCommand : SimpleCommand → Option Str
  | { name := none, arguments, .. } => (formatWords arguments).map (joinStrs [' '])
  | { name := some name, arguments, .. } =>
      concatStrs [formatWord name, some [' '], (formatWords arguments).map (joinStrs [' '])]

def formatBraceGroup : BraceGroup → Option Str
  | { body, .. } =>
      concatStrs [some ['{', ' '], (formatLists body).map (joinStrs [' ']), some [';', ' ', '}']]

def formatSubshell : Subshell → Option Str
  | { body, .. } => concatStrs [some ['('], (formatLists body).map (joinStrs [' ']), some [')']]

def formatIfClause : IfClause → Option Str
  | { condition, body, elsePart := none, .. } =>
      concatStrs [some "if ".toList, (formatLists condition).map (joinStrs [' ']),
        some "then ".toList, (formatLists body).map (joinStrs [' ']), some "fi".toList]
  | { condition, body, elsePart := some elsePart, .. } =>
      concatStrs [some "if ".toList, (formatLists condition).map (joinStrs [' ']),
        some "then ".toList, (formatLists body).map (joinStrs [' ']), some "else ".toList,
        formatCommand elsePart, some "fi".toList]

def formatLoopClause : LoopClause → Option Str
  | { type, condition, body, .. } =>
      concatStrs [some (if type = .while then "while ".toList else "until ".toList),
        (formatLists condition).map (joinStrs [' ']), some "do ".toList,
        (formatLists body).map (joinStrs [' ']), some "done".toList]

def formatFunctionDefinition : FunctionDefinition → Option Str
  | { name, body, .. } => concatStrs [some name, some ['(', ')'], formatCommand body]

/-- `for` and `case` clauses are not printed. -/
def formatCommand : Command → Option Str
  | .simpleCommand sc => formatSimpleCommand sc
  | .braceGroup bg => formatBraceGroup bg
  | .subshell ss => formatSubshell ss
  | .ifClause ic => formatIfClause ic
  | .forClause _ => some []
  | .loopClause lc => formatLoopClause lc
  | .caseClause _ => some []
  | .functionDefinition fd => formatFunctionDefinition fd

def formatCommands : List Command → Option (List Str)
  | [] => some []
  | cmd :: cmds => do
      let cmd ← formatCommand cmd
      let cmds ← formatCommands cmds
      some (cmd :: cmds)

def formatPipeline : Pipeline → Option Str
  | { commands, bang, .. } =>
      concatStrs [some (if bang then ['!', ' '] else []),
        (formatCommands commands).map (joinStrs [' ', '|', ' '])]

def formatAndOrList : AndOrList → Option Str
  | .pipeline pl => formatPipeline pl
  | .binop type left right _ =>
      concatStrs [formatAndOrList left, some ([' '] ++ binopTypeStr type ++ [' ']), formatAndOrList right]

def formatList : CommandList → Option Str
  | { andOrList, ampersand, .. } =>
      concatStrs [formatAndOrList andOrList, some (if ampersand then [' ', '&'] else [';'])]

def formatLists : List CommandList → Option (List Str)
  | [] => some []
  | l :: ls => do
      let l ← formatList l
      let ls ← formatLists ls
      some (l :: ls)

def formatProgram : Program → Option Str
  | { body } => (formatLists body).map (joinStrs [' '])

end

end Mrsh
