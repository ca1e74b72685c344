import Mrsh.Builtin.Jobs
import Mrsh.Builtin.Utilities
import Mrsh.Builtin.Variables
import Mrsh.Shell.Task.SimpleCommand

namespace Mrsh

open Mrsh.Data

/-! # Builtins for control flow and for running commands

`break` and `continue`, `return`, `exit`, `eval`, `.`, `exec` and `command`, and
the call of a builtin by its name.
-/

section

variable {World : Type}

/-! ## Leaving a loop, a function or the shell -/

def breakUsage (argv0 : Str) : Str := "usage: ".toList ++ argv0 ++ " [n]\n".toList

def branchOf (argv0 : Str) : BranchControl :=
  if argv0 == "break".toList then .break else .continue

/-- Leaves `n` loops, but not more than there are. -/
def breakLoops (argv0 : Str) (n : Int) : Exec World Int := do
  let nloops ← leaf (gets (·.nloops))
  control (.setLoops (nloops - (min n nloops - 1)))
  control (.setBranch (branchOf argv0))
  pure taskStatusInterrupted

variable [System World]

def builtinBreak (args : List Str) : Exec World Int := do
  let argv0 := args.headD []
  match args with
  | [_] => breakLoops argv0 1
  | [_, arg] =>
      let scanned := strtol 10 arg
      let n := toInt32 scanned.value
      if !scanned.rest.isEmpty || argv0.isEmpty || n < 0 then
        leaf (failWith [argv0, ": invalid loop number '".toList, arg, ['\'']])
      else breakLoops argv0 n
  | _ => leaf (usageError (breakUsage argv0))

def returnWith (n : Int) : Exec World Int := do
  control (.setLoops 0)
  control (.setBranch .return)
  leaf (setLastStatus n)
  pure taskStatusInterrupted

def builtinReturn (args : List Str) : Exec World Int := do
  let argv0 := args.headD []
  match args with
  | [_] => returnWith 0
  | [_, arg] =>
      let scanned := strtol 10 arg
      let n := toInt32 scanned.value
      if !scanned.rest.isEmpty || argv0.isEmpty || n < 0 || 255 < n then
        leaf (failWith [argv0, ": invalid return number '".toList, arg, ['\'']])
      else returnWith n
  | _ => leaf (usageError (breakUsage argv0))

def exitUsage : Str := "usage: exit [n]\n".toList

def exitWith (status : Nat) : Exec World Int := do
  leaf (setExit status)
  control (.setBranch .exit)
  record .exitBuiltin
  pure taskStatusInterrupted

def builtinExit (args : List Str) : Exec World Int := do
  match args with
  | [_] => exitWith 0
  | [_, arg] =>
      let scanned := strtol 10 arg
      if !scanned.rest.isEmpty || scanned.outOfRange || scanned.value < 0 || 255 < scanned.value then
        leaf (usageError exitUsage)
      else exitWith scanned.value.toNat
  | _ => leaf (usageError exitUsage)

/-! ## Running text as commands -/

/-- Runs the program that was parsed, unless there was an error. -/
def runParsed (self : Tasks World) (name : Str) (program : Option Program)
    (error : Option (Str × Position)) : Exec World Int := do
  match error with
  | some (msg, pos) =>
      leaf (failWith [name, [' '], decimal pos.line, [':'], decimal pos.column, ": ".toList, msg])
  | none =>
      match program with
      | some program => self.mrshRunProgram program
      | none => pure 0

def evalUsage : Str := "usage: eval [cmds...]\n".toList

def builtinEval (self : Tasks World) (args : List Str) : Exec World Int := do
  match args.tail with
  | [] => leaf (usageError evalUsage)
  | words => do
      let text := ([' '] : Str).intercalate words ++ ['\n']
      let (program, parser) ← leaf (parseText text (mrshParseProgram self.fuel))
      runParsed self (words.headD []) program parser.error

def sourceUsage : Str := "usage: . <path>\n".toList

/-- A failure of `.`, which makes a non-interactive shell exit. -/
def dotError (parts : List Str) : Leaf World Int := do
  eprintf (parts.flatten ++ ['\n'])
  let interactive ← gets (·.interactive)
  if !interactive then setExit 1
  pure 1

/-- The text of the file, unless it cannot be read. -/
def readFile (fd : Int) : Nat → Str → Leaf World (Option Str)
  | 0, _ => outOfFuel
  | fuel + 1, buf => do
      match ← call (System.read fd) with
      | .error .eintr => readFile fd fuel buf
      | .error _ => pure none
      | .ok [] => pure (some buf)
      | .ok text => readFile fd fuel (buf ++ text)

/-- An error of `read` counts as one at the start of the text. -/
def parseFile (fuel : Nat) (fd : Int) :
    Leaf World (Option Program × Option (Str × Position)) := do
  match ← readFile fd fuel [] with
  | none => pure (none, some ("failed to read".toList, ⟨0, 1, 1⟩))
  | some text => do
      let (program, parser) ← parseText text (mrshParseProgram fuel)
      pure (program, parser.error)

def builtinDot (self : Tasks World) (args : List Str) : Exec World Int := do
  match args with
  | [_, name] =>
      match ← leaf (expandPath name false false) with
      | none => leaf (dotError [name, ": not found".toList])
      | some path =>
          match ← leaf (call (System.openFile path .readOnly)) with
          | .error errno => do
              let msg ← leaf (strerror errno)
              leaf (dotError ["unable to open ".toList, name, " for reading: ".toList, msg])
          | .ok fd => do
              let (program, error) ← leaf (parseFile self.fuel fd)
              let ret ← runParsed self name program error
              leaf (call (System.close fd))
              pure ret
  | _ => leaf (usageError sourceUsage)

/-! ## Running other programs -/

def execUsage : Str := "usage: exec [command [argument...]]\n".toList

def execCommand (name : Str) (argv : List Str) : Leaf World Int := do
  match ← expandPath name false false with
  | none => do
      eprintf ("exec: ".toList ++ name ++ ": command not found\n".toList)
      pure 127
  | some path =>
      match ← call (System.access path true) with
      | .error _ => do
          eprintf ("exec: ".toList ++ path ++ ": not executable\n".toList)
          pure 126
      | .ok _ => do
          let errno ← execv path argv
          perror "exec".toList errno
          pure 1

def builtinExec (args : List Str) : Leaf World Int := do
  match ← noOptions args "exec".toList execUsage with
  | .error status => pure status
  | .ok _ => do
      match ← operandsOf args with
      | [] => pure 0
      | name :: rest => execCommand name (name :: rest)

def commandUsage : Str := "usage: command [-v|-V|-p] command_name [argument...]\n".toList

/-- The line that `command -v` prints. -/
def verifyLine (name : Str) (defaultPath : Bool) : Leaf World (Option Str) := do
  match ← gets (·.aliases.get name) with
  | some value => pure (some ("alias ".toList ++ name ++ "='".toList ++ value ++ ['\'']))
  | none =>
      let functions ← gets (·.functions)
      if (functions.get name).isSome || mrshHasBuiltin name || keywords.contains name then
        pure (some name)
      else expandPath name true defaultPath

def verifyCommand (name : Str) (defaultPath : Bool) : Leaf World Int := do
  match ← verifyLine name defaultPath with
  | some line => do
      printf (line ++ ['\n'])
      pure 0
  | none => pure 1

def commandChild {α : Type} (path : Str) (argv : List Str) : Leaf World α := do
  let errno ← execv path argv
  perror (argv.headD []) errno
  exitProcess 126

def commandProcess (fuel : Nat) (argv : List Str) (defaultPath : Bool) : Leaf World Int := do
  let name := argv.headD []
  match ← expandPath name true defaultPath with
  | none => do
      eprintf (name ++ ": not found\n".toList)
      pure 127
  | some path =>
      match ← call System.fork with
      | .error errno => do
          perror "fork".toList errno
          pure 126
      | .ok pid =>
          if pid == 0 then commandChild path argv
          else do
            let proc ← processCreate pid
            jobWaitProcess proc fuel

structure CommandOptions where
  verify : Bool
  defaultPath : Bool

def commandOption (options : CommandOptions) (opt : Char) : Leaf World (Except Int CommandOptions) := do
  if opt == 'v' then pure (.ok { options with verify := true })
  else if opt == 'V' then do
    eprintf "command: `-V` has an unspecified output format, use `-v` instead\n".toList
    pure (.error 0)
  else if opt == 'p' then pure (.ok { options with defaultPath := true })
  else unknownOption "command: unknown option -- ".toList commandUsage

/-- `run_command` of `builtin/command.c`. A builtin gets the operands without
as many strings as there were options before, once more. -/
def runCommandOperands (self : Tasks World) (argv : List Str) (defaultPath : Bool) :
    Exec World Int := do
  if mrshHasBuiltin (argv.headD []) then
    let operands ← leaf (operandsOf argv)
    self.mrshRunBuiltin operands
  else leaf (commandProcess self.fuel argv defaultPath)

def builtinCommand (self : Tasks World) (args : List Str) : Exec World Int := do
  match ← leaf (forOptions args ":vVp".toList ⟨false, false⟩ commandOption) with
  | .error status => pure status
  | .ok options => do
      match ← leaf (operandsOf args) with
      | [] => leaf (usageError commandUsage)
      | name :: rest =>
          if options.verify then
            if !rest.isEmpty then leaf (usageError commandUsage)
            else leaf (verifyCommand name options.defaultPath)
          else runCommandOperands self (name :: rest) options.defaultPath

/-! ## Calling a builtin -/

def runBuiltinFunc (self : Tasks World) (args : List Str) : BuiltinFunc → Exec World Int
  | .dot => builtinDot self args
  | .colon => leaf builtinColon
  | .alias => leaf (builtinAlias args)
  | .bg => leaf (builtinBg args)
  | .break => builtinBreak args
  | .cd => leaf (builtinCd args)
  | .command => builtinCommand self args
  | .eval => builtinEval self args
  | .exec => leaf (builtinExec args)
  | .exit => builtinExit args
  | .export => leaf (builtinExport args)
  | .false => leaf builtinFalse
  | .fg => leaf (builtinFg self.fuel args)
  | .getopts => leaf (builtinGetopts args)
  | .hash => leaf (builtinHash args)
  | .jobs => leaf (builtinJobs args)
  | .pwd => leaf (builtinPwd args)
  | .read => leaf (builtinRead self.fuel args)
  | .return => builtinReturn args
  | .set => leaf (builtinSet self.fuel args)
  | .shift => leaf (builtinShift args)
  | .times => leaf (builtinTimes args)
  | .trap => leaf (builtinTrap self.fuel args)
  | .true => leaf builtinTrue
  | .type => leaf (builtinType args)
  | .ulimit => leaf (builtinUlimit args)
  | .umask => leaf (builtinUmask args)
  | .unalias => leaf (builtinUnalias args)
  | .unset => leaf (builtinUnset args)
  | .wait => leaf (builtinWait args)
  | .unspecified => leaf (builtinUnspecified args)

def mrshRunBuiltin (self : Tasks World) (args : List Str) : Exec World Int := do
  match args with
  | [] => leaf abort
  | name :: _ =>
      match getBuiltin name with
      | none => pure (-1)
      | some builtin => runBuiltinFunc self args builtin.func

end

end Mrsh
