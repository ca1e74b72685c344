import Mrsh.Parser.Program
import Mrsh.Shell.Arithm
import Mrsh.Shell.Redir
import Mrsh.Shell.Word

namespace Mrsh

open Mrsh.Data

/-! # Word expansion

The functions of `shell/task/word.c`. A function that changes the word it is
given a pointer to returns the word together with the status. The functions
that run commands come from a `Tasks` record, which `tasks` in the module for
programs builds one level of calls at a time.
-/

structure Context where
  job : Option Nat
  background : Bool
deriving Repr, DecidableEq

/-- The context of `mrsh_run_program` and `mrsh_run_word`. -/
def Context.initial : Context := ⟨none, false⟩

structure Tasks (World : Type) where
  /-- Bounds the loops of the shell and the recursion of its parsers. -/
  fuel : Nat
  runWord : Context → Word → Exec World (Int × Word)
  runCommand : Context → Command → Exec World Int
  mrshRunProgram : Program → Exec World Int
  mrshRunBuiltin : List Str → Exec World Int

section

variable {World : Type}

/-- Runs a parser for a text. -/
def parseText {α : Type} (text : Str) (parse : Parse α) : Leaf World (α × Parser) := do
  let nextAddress ← gets (·.nextAddress)
  match parse { mrshParserWithData text with nextAddress } with
  | .done value parser => do
      update fun core => { core with nextAddress := parser.nextAddress }
      pure (value, parser)
  | .stopped .outOfFuel _ => outOfFuel
  | .stopped .aborted _ => abort

def copyWord (word : Word) : Leaf World Word := do
  let generation ← newSerial
  orCrash (mrshWordCopy generation word)

variable [System World]

def expandTildeWord (word : Word) (assignment : Bool) : Leaf World Word := do
  let home ← envValue "HOME".toList
  gets fun state => expandTilde home (System.getpwnam · state.world) word assignment

/-! ## Command substitution -/

def bufferReadFrom (fd : Int) : Nat → Str → Leaf World (Option Str)
  | 0, _ => outOfFuel
  | fuel + 1, buf => do
      match ← call (System.read fd) with
      | .error .eintr => bufferReadFrom fd fuel buf
      | .error errno => do
          perror "read".toList errno
          pure none
      | .ok [] => pure (some buf)
      | .ok text => bufferReadFrom fd fuel (buf ++ text)

/-- `naive_word_streq`, whatever the string that it is given. -/
def naiveWordStreq : Word → Bool
  | .string str _ _ _ => str == "trap".toList
  | .list [child] _ _ _ => naiveWordStreq child
  | _ => false

def isPrintTraps (program : Program) : Bool :=
  match program.body with
  | [{ andOrList := .pipeline { commands := [.simpleCommand sc], bang := false, .. },
       ampersand := false, .. }] =>
      match sc.name, sc.arguments with
      | some name, [] => naiveWordStreq name
      | some name, [arg] => naiveWordStreq name && naiveWordStreq arg
      | _, _ => false
  | _ => false

/-- The part of the output that the word stands for, which ends at a NUL. -/
def commandOutput (buf : Str) : Str :=
  (buf.reverse.dropWhile (· == '\n')).reverse.takeWhile (· != '\x00')

def splitString (str : Str) : Word := .string str false true .invalid

def runWordCommandChild {α : Type} (self : Tasks World) (program : Option Program) (fds : Int × Int) :
    Exec World α := do
  leaf (call (System.close fds.1))
  if fds.2 != stdoutFileno then
    let _ ← leaf (call (System.dup2 fds.2 stdoutFileno))
    leaf (call (System.close fds.2))
  leaf (initJobChildProcess self.fuel)
  if !program.any isPrintTraps then
    let _ ← leaf resetCaughtTraps
  match program with
  | some program => do
      let _ ← self.mrshRunProgram program
  | none => pure ()
  let exit ← leaf (gets (·.exit))
  leaf (exitProcess (if 0 ≤ exit then exit else 0))

def runWordCommand (self : Tasks World) (word : Word) (program : Option Program) :
    Exec World (Int × Word) := do
  match ← leaf (call System.pipe) with
  | .error errno => do
      leaf (perror "pipe".toList errno)
      pure (taskStatusError, word)
  | .ok fds =>
      match ← leaf (call System.fork) with
      | .error errno => do
          leaf (perror "fork".toList errno)
          leaf (closeBoth fds)
          pure (taskStatusError, word)
      | .ok pid =>
          if pid == 0 then runWordCommandChild self program fds
          else do
            let process ← leaf (processCreate pid)
            leaf (call (System.close fds.2))
            match ← leaf (bufferReadFrom fds.1 self.fuel []) with
            | none => do
                leaf (call (System.close fds.1))
                pure (taskStatusError, word)
            | some buf => do
                leaf (call (System.close fds.1))
                let status ← leaf (jobWaitProcess process self.fuel)
                pure (status, splitString (commandOutput buf))

/-! ## Parameters -/

/-- The short names of the options, in the order of the table of `set`. -/
def shortOptions : List (Char × ShellOption) :=
  [('a', .allexport), ('b', .notify), ('C', .noclobber), ('e', .errexit), ('f', .noglob),
   ('h', .prelookup), ('m', .monitor), ('n', .noexec), ('u', .nounset), ('v', .verbose),
   ('x', .xtrace)]

def stateGetOptions (options : ShellOption → Bool) : Str :=
  (shortOptions.filter fun option => options option.2).map Prod.fst

/-- The process of the last job that has one, for `$!`. -/
def lastJobProcess (jobs : List Job) : Option Nat :=
  jobs.reverse.findSome? fun job => job.processes.getLast?

def positionalParameter (number : Int) : Leaf World (Option Str) := do
  let argc ← gets (·.argc)
  if argc ≤ number then pure none
  else do
    let argv ← gets (·.argv)
    slotAt argv number

def parameterGetValue (name : Str) : Leaf World (Option Str) := do
  let number := strtol 10 name
  if name == ['@'] || name == ['*'] then pure none
  else if name == ['#'] then do
    let argc ← gets (·.argc)
    pure (some (decimal (argc - 1)))
  else if name == ['?'] then do
    let status ← gets (·.lastStatus)
    pure (some (decimal status))
  else if name == ['-'] then do
    let options ← gets (·.options)
    pure (some (stateGetOptions options))
  else if name == ['$'] then do
    let pid ← call System.getpid
    pure (some (decimal pid))
  else if name == ['!'] then do
    let jobs ← gets (·.jobs)
    match lastJobProcess jobs with
    | some serial => do
        let process ← findProcess serial
        pure (some (decimal process.pid))
    | none => pure (some [])
  else if number.rest.isEmpty && !name.isEmpty then positionalParameter number.value
  else envValue name

/-- The separator of the positional parameters, which is empty with an empty IFS. -/
def positionalSep (ifs : Option Str) : Str :=
  match ifs with
  | none => [' ']
  | some ifs => ifs.take 1

def positionalWords (sep : Str) (quoteArgs : Bool) : List Str → List Word
  | [] => []
  | [arg] => [.string arg quoteArgs true .invalid]
  | arg :: args =>
      .string arg quoteArgs true .invalid ::
        ((if sep.isEmpty then [] else [splitString sep]) ++ positionalWords sep quoteArgs args)

/-- The strings `argv[i]` for the given indices. -/
def frameArgs (indices : List Nat) : Leaf World (List Str) :=
  indices.mapM fun (i : Nat) => frameArg (i : Int)

def positionalIndices (argc : Int) : List Nat := (List.range argc.toNat).drop 1

def expandPositionalParams (quoteArgs : Bool) : Leaf World Word := do
  let ifs ← envValue "IFS".toList
  let argc ← gets (·.argc)
  let args ← frameArgs (positionalIndices argc)
  pure (mrshWordListCreate (positionalWords (positionalSep ifs) quoteArgs args) false)

mutual

def markWordSplitFields : Word → Word
  | .string str singleQuoted _ range => .string str singleQuoted true range
  | .list children doubleQuoted lquotePos rquotePos =>
      .list (markWordsSplitFields children) doubleQuoted lquotePos rquotePos
  | word => word

def markWordsSplitFields : List Word → List Word
  | [] => []
  | child :: children => markWordSplitFields child :: markWordsSplitFields children

end

def createWordString (str : Str) : Word := mrshWordStringCreate str false

def copyWordOrNull (word : Option Word) : Leaf World Word :=
  match word with
  | some word => copyWord word
  | none => pure (createWordString [])

mutual

/-- `is_null_word`, which is undefined where the C function aborts. -/
def isNullWord : Word → Option Bool
  | .string str _ _ _ => some str.isEmpty
  | .list children _ _ _ => areNullWords children
  | _ => none

def areNullWords : List Word → Option Bool
  | [] => some true
  | child :: children => do
      if ← isNullWord child then areNullWords children else some false

end

/-- Whether the parameter is unset, or null where the operation has a colon. -/
def isUnset (colon : Bool) (value : Option Word) : Leaf World Bool := do
  match value with
  | none => pure true
  | some value => if colon then orCrash (isNullWord value) else pure false

/-- The message of `${name?message}`. -/
def unsetMessage (self : Tasks World) (ctx : Context) (arg : Option Word) :
    Exec World (Except Int Str) := do
  match arg with
  | none => pure (.ok "parameter not set or null".toList)
  | some arg => do
      let word ← leaf (copyWord arg)
      let (ret, word) ← self.runWord ctx word
      if ret < 0 then pure (.error ret)
      else do
        let msg ← leaf (orCrash (mrshWordStr word))
        pure (.ok msg)

/-- The word that the parameter expands to, or the status of the failure. -/
def applyParameterCondOp (self : Tasks World) (ctx : Context) (wp : WordParameter)
    (value : Option Word) : Exec World (Except Int (Option Word)) := do
  match wp.op with
  | .none => pure (.ok value)
  | .minus =>
      if ← leaf (isUnset wp.colon value) then
        let result ← leaf (copyWordOrNull wp.arg)
        pure (.ok (some result))
      else pure (.ok value)
  | .equal =>
      if ← leaf (isUnset wp.colon value) then
        let result ← leaf (copyWordOrNull wp.arg)
        let (ret, result) ← self.runWord ctx result
        if ret < 0 then pure (.error ret)
        else do
          let str ← leaf (orCrash (mrshWordStr result))
          leaf (mrshEnvSet .parameter wp.name str .none)
          pure (.ok (some result))
      else pure (.ok value)
  | .qmark =>
      if ← leaf (isUnset wp.colon value) then
        match ← unsetMessage self ctx wp.arg with
        | .error ret => pure (.error ret)
        | .ok msg => do
            leaf (argv0Message [wp.name, msg])
            pure (.error taskStatusError)
      else pure (.ok value)
  | .plus =>
      if ← leaf (isUnset wp.colon value) then pure (.ok (some (createWordString [])))
      else do
        let result ← leaf (copyWordOrNull wp.arg)
        pure (.ok (some result))
  | _ => leaf (abort)

def trimStr (str cut : Str) (suffix : Bool) : Str :=
  if suffix then
    if cut.isSuffixOf str then str.take (str.length - cut.length) else str
  else if cut.isPrefixOf str then str.drop cut.length else str

def trimPattern (World : Type) [System World] (str pattern : Str) (suffix largest : Bool) : Str :=
  let indices := List.range str.length
  let indices := if suffix == largest then indices else indices.reverse
  match indices.find? fun i =>
      System.fnmatch World pattern (if suffix then str.drop i else str.take i) with
  | some i => if suffix then str.take i else str.drop i
  | none => str

def applyParameterStrOp (self : Tasks World) (ctx : Context) (wp : WordParameter)
    (str : Option Str) : Exec World (Except Int (Option Word)) := do
  if wp.op == .leadingHash then
    if str.isNone && (← leaf (optionSet .nounset)) then pure (.ok none)
    else pure (.ok (some (createWordString (decimal (str.getD []).length))))
  else
    match str, wp.arg with
    | none, _ => pure (.ok none)
    | some str, none => pure (.ok (some (createWordString str)))
    | some str, some arg => do
        let suffix := wp.op == .percent || wp.op == .dpercent
        let largest := wp.op == .dpercent || wp.op == .dhash
        let pattern ← leaf (copyWord arg)
        let (ret, pattern) ← self.runWord ctx pattern
        if ret < 0 then pure (.error ret)
        else
          match ← leaf (orCrash (wordToPattern pattern)) with
          | none => do
              let cut ← leaf (orCrash (mrshWordStr pattern))
              pure (.ok (some (createWordString (trimStr str cut suffix))))
          | some pattern =>
              pure (.ok (some (createWordString (trimPattern World str pattern suffix largest))))

def isCondOp (op : ParameterOp) : Bool :=
  op == .none || op == .minus || op == .equal || op == .qmark || op == .plus

/-- The value of the parameter as a word. -/
def parameterWord (name : Str) (value : Option Str) (doubleQuoted : Bool) :
    Leaf World (Option Word) := do
  if name == ['@'] then some <$> expandPositionalParams doubleQuoted
  else if name == ['*'] then some <$> expandPositionalParams false
  else pure (value.map createWordString)

def applyParameterOp (self : Tasks World) (ctx : Context) (wp : WordParameter) (value : Option Str)
    (doubleQuoted : Bool) : Exec World (Except Int (Option Word)) := do
  if isCondOp wp.op then
    let valueWord ← leaf (parameterWord wp.name value doubleQuoted)
    applyParameterCondOp self ctx wp valueWord
  else if wp.name == ['@'] || wp.name == ['*'] || (wp.op != .leadingHash && wp.name == ['#']) then do
    let argv0 ← leaf (frameArg 0)
    leaf (eprintf (argv0 ++ ": using this parameter operator on $".toList ++ wp.name ++
      " is undefined behaviour\n".toList))
    pure (.error taskStatusError)
  else applyParameterStrOp self ctx wp value

/-- The result of the expansion, which is empty for an unset parameter. -/
def parameterResult (name : Str) (result : Option Word) : Leaf World (Option Word) := do
  match result with
  | some result => pure (some (markWordSplitFields result))
  | none =>
      if ← optionSet .nounset then
        argv0Message [name, "unbound variable".toList]
        pure none
      else pure (some (splitString []))

def runWordParameter (self : Tasks World) (ctx : Context) (doubleQuoted : Bool)
    (wp : WordParameter) : Exec World (Int × Word) := do
  let value ← leaf (parameterGetValue wp.name)
  let value := if value.isNone && wp.name == "LINENO".toList then some (decimal wp.dollarPos.line)
    else value
  match ← applyParameterOp self ctx wp value doubleQuoted with
  | .error ret => pure (ret, .parameter wp)
  | .ok result =>
      match ← leaf (parameterResult wp.name result) with
      | none => pure (taskStatusError, .parameter wp)
      | some (.string str singleQuoted splitFields range) =>
          pure (0, .string str singleQuoted splitFields range)
      | some result => do
          let (ret, result) ← self.runWord ctx result
          if ret < 0 then pure (ret, .parameter wp) else pure (0, result)

/-! ## Arithmetic expansion -/

def runArithmetic (fuel : Nat) (body : Word) : Leaf World (Int × Word) := do
  let bodyStr ← orCrash (mrshWordStr body)
  let (expr, parser) ← parseText bodyStr (mrshParseArithmExpr fuel)
  match expr with
  | none => do
      match parser.error with
      | some (msg, pos) => do
          let argv0 ← frameArg 0
          eprintf (argv0 ++ " (arithmetic ".toList ++ decimal pos.line ++ [':'] ++ decimal pos.column ++
            "): ".toList ++ msg ++ ['\n'])
      | none => eprintf "expected an arithmetic expression\n".toList
      pure (taskStatusError, .arithmetic body)
  | some expr =>
      match ← mrshRunArithmExpr expr (← call System.indeterminate) with
      | none => pure (taskStatusError, .arithmetic body)
      | some result => pure (0, splitString (decimal result))

/-! ## Words -/

def isAtSign : Word → Bool
  | .parameter wp => wp.name == ['@']
  | _ => false

/-- Puts the words that come from `$@` outside of the double quotes. -/
def unquoteAtSigns (quoted : List Word) : List (Word × Bool) → List Word
  | [] => closeQuoted quoted
  | (child, true) :: children => closeQuoted quoted ++ child :: unquoteAtSigns [] children
  | (child, false) :: children => unquoteAtSigns (quoted ++ [child]) children
where
  closeQuoted (quoted : List Word) : List Word :=
    if quoted.isEmpty then [] else [mrshWordListCreate quoted true]

/-- The list after its children were run. The flags tell which children come
from `$@` in double quotes. -/
def finishList (children : List (Word × Bool)) (doubleQuoted : Bool)
    (lquotePos rquotePos : Position) : Word :=
  if children.any Prod.snd then mrshWordListCreate (unquoteAtSigns [] children) false
  else .list (children.map Prod.fst) doubleQuoted lquotePos rquotePos

mutual

/-- `_run_word`. -/
def runWordIn (self : Tasks World) (ctx : Context) (doubleQuoted : Bool) :
    Word → Exec World (Int × Word)
  | .string str singleQuoted splitFields range => pure (0, .string str singleQuoted splitFields range)
  | .parameter wp => runWordParameter self ctx doubleQuoted wp
  | .command program backQuoted range => runWordCommand self (.command program backQuoted range) program
  | .arithmetic body => do
      let (ret, body) ← runWordIn self ctx false body
      if ret < 0 then pure (ret, .arithmetic body) else leaf (runArithmetic self.fuel body)
  | .list children listQuoted lquotePos rquotePos => do
      let (ret, children) ← runWords self ctx (doubleQuoted || listQuoted) listQuoted children
      if ret < 0 then pure (ret, .list (children.map Prod.fst) listQuoted lquotePos rquotePos)
      else pure (0, finishList children listQuoted lquotePos rquotePos)
  | .null => leaf (abort)

/-- The children up to the first failure are run. -/
def runWords (self : Tasks World) (ctx : Context) (doubleQuoted listQuoted : Bool) :
    List Word → Exec World (Int × List (Word × Bool))
  | [] => pure (0, [])
  | child :: children => do
      let (ret, word) ← runWordIn self ctx doubleQuoted child
      let flagged := (word, listQuoted && isAtSign child)
      if ret < 0 then pure (ret, flagged :: children.map (·, false))
      else do
        let (ret, words) ← runWords self ctx doubleQuoted listQuoted children
        pure (ret, flagged :: words)

end

def runWord (self : Tasks World) (ctx : Context) (word : Word) : Exec World (Int × Word) :=
  runWordIn self ctx false word

/-! ## All expansions -/

/-- The strings that a field expands to, unless `glob` fails. -/
def expandPathname (field : Word) : Leaf World (Option (List Str)) := do
  match ← orCrash (wordToPattern field) with
  | none => do
      let str ← orCrash (mrshWordStr field)
      pure (some [str])
  | some pattern => do
      update fun core => { core with globbed := core.globbed ++ [pattern] }
      match ← call (System.glob pattern) with
      | .paths paths => pure (some paths)
      | .noMatch => do
          let str ← orCrash (mrshWordStr field)
          pure (some [str])
      | .failed code => do
          eprintf ("glob failed: ".toList ++ decimal code ++ ['\n'])
          pure none

def expandPathnames : List Word → Leaf World (Option (List Str))
  | [] => pure (some [])
  | field :: fields => do
      match ← expandPathname field with
      | none => pure none
      | some strs =>
          match ← expandPathnames fields with
          | none => pure none
          | some rest => pure (some (strs ++ rest))

/-- `expand_word`, with the fields that the word expands to. -/
def expandWord (self : Tasks World) (ctx : Context) (word : Word) : Exec World (Int × List Str) := do
  let word ← leaf (copyWord word)
  let word ← leaf (expandTildeWord word false)
  let (ret, word) ← runWord self ctx word
  if ret < 0 then pure (ret, [])
  else do
    let ifs ← leaf (envValue "IFS".toList)
    let fields ← leaf (orCrash (splitFields word ifs))
    if ← leaf (optionSet .noglob) then
      let strs ← leaf (orCrash (getFieldsStr fields))
      pure (ret, strs)
    else
      match ← leaf (expandPathnames fields) with
      | none => pure (taskStatusError, [])
      | some strs => pure (ret, strs)

/-- `expand_word` for each of the words, up to the first failure. -/
def expandWords (self : Tasks World) (ctx : Context) : List Word → Exec World (Int × List Str)
  | [] => pure (0, [])
  | word :: words => do
      let (ret, strs) ← expandWord self ctx word
      if ret < 0 then pure (ret, [])
      else do
        let (ret, rest) ← expandWords self ctx words
        pure (ret, strs ++ rest)

def mrshRunWord (self : Tasks World) (word : Word) : Exec World (Int × Word) := do
  let word ← leaf (expandTildeWord word false)
  let lastStatus ← leaf (gets (·.lastStatus))
  let (ret, word) ← runWord self .initial word
  leaf (setLastStatus lastStatus)
  pure (ret, word)

end

end Mrsh
