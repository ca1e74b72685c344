import Mrsh.Builtin.Table
import Mrsh.Shell.Task.Word

namespace Mrsh

open Mrsh.Data

/-! # Simple commands

The functions of `shell/task/simple_command.c`.
-/

section

variable {World : Type} [System World]

/-! ## Children -/

/-- `init_child`, and `init_async_child` which never changes the foreground job. -/
def initChild (ctx : Context) (pid : Int) (async : Bool) : Leaf World Nat := do
  let proc ← processCreate pid
  if ← optionSet .monitor then
    let job ← orCrash ctx.job
    jobAddProcess job proc
    let interactive ← gets (·.interactive)
    if !async && interactive && !ctx.background then
      let _ ← jobSetForeground job true false
  pure proc

/-- Leaves job control in a child, with the `monitor` option. -/
def leaveJobControl (fuel : Nat) : Leaf World Unit := do
  if ← optionSet .monitor then initJobChildProcess fuel

/-! ## External programs -/

/-- The assignments of a command, which are put in the environment of its
process. A readonly variable ends the process. -/
def setAssignments : List Assignment → Leaf World Unit
  | [] => pure ()
  | assign :: rest => do
      let prev ← mrshEnvGet assign.name
      if prev.any (·.attribs.readonly) then do
        eprintf ("cannot modify readonly variable ".toList ++ assign.name ++ ['\n'])
        exitProcess 1
      else do
        let value ← orCrash (mrshWordStr assign.value)
        setenv assign.name value
        setAssignments rest

/-- `populate_env_iterator` for one variable. -/
def populateEnv (environ : List (Str × Str)) (entry : Str × Variable) : List (Str × Str) :=
  if entry.2.attribs.exported then setenvIn environ entry.1 entry.2.value else environ

def populateEnvAll : Leaf World Unit := do
  let vars ← gets (·.vars.entries)
  update fun core => { core with environ := vars.foldl populateEnv core.environ }

/-- The redirections of a process. A failure ends the process. -/
def redirectProcess : List IoRedirect → Leaf World Unit
  | [] => pure ()
  | redir :: rest => do
      match ← processRedir redir with
      | none => exitProcess 1
      | some (fd, redirFd) =>
          if fd == redirFd then redirectProcess rest
          else
            match ← call (System.dup2 fd redirFd) with
            | .error errno => do
                let msg ← strerror errno
                eprintf ("cannot duplicate file descriptor: ".toList ++ msg ++ ['\n'])
                exitProcess 1
            | .ok _ => redirectProcess rest

/-- `execv`, which returns only when it fails. -/
def execv (path : Str) (argv : List Str) : Leaf World Errno := do
  let environ ← gets (·.environ)
  match ← call (System.execv path argv environ) with
  | none => .stop (.executed path argv environ)
  | some errno => pure errno

/-- The child of `run_process`. -/
def runProcessChild {α : Type} (fuel : Nat) (ctx : Context) (sc : SimpleCommand) (path : Str)
    (argv : List Str) : Leaf World α := do
  let pid ← call System.getpid
  let _ ← initChild ctx pid false
  leaveJobControl fuel
  setAssignments sc.assignments
  populateEnvAll
  redirectProcess sc.ioRedirects
  let errno ← execv path argv
  let msg ← strerror errno
  eprintf (argv.headD [] ++ ": ".toList ++ msg ++ ['\n'])
  exitProcess 127

def runProcess (fuel : Nat) (ctx : Context) (sc : SimpleCommand) (argv : List Str) :
    Leaf World Int := do
  assertThat ctx.job.isSome
  match ← expandPath (argv.headD []) true false with
  | none => do
      eprintf (argv.headD [] ++ ": not found\n".toList)
      pure 127
  | some path =>
      match ← call System.fork with
      | .error errno => do
          perror "fork".toList errno
          pure taskStatusError
      | .ok pid =>
          if pid == 0 then runProcessChild fuel ctx sc path argv
          else do
            let process ← initChild ctx pid false
            jobWaitProcess process fuel

/-! ## Builtins -/

structure SavedFd where
  dupFd : Int
  redirFd : Int

/-- A message about a descriptor that cannot be duplicated. -/
def dupFailed (errno : Errno) : Leaf World Unit := do
  let msg ← strerror errno
  eprintf ("failed to duplicate file descriptor: ".toList ++ msg ++ ['\n'])

def dupAndSaveFd (fd redirFd : Int) : Leaf World (Option SavedFd) := do
  if fd == redirFd then pure (some ⟨-1, redirFd⟩)
  else
    match ← call (System.dup redirFd) with
    | .error errno => do
        dupFailed errno
        pure none
    | .ok dupFd =>
        match ← call (System.dup2 fd redirFd) with
        | .error errno => do
            dupFailed errno
            pure none
        | .ok _ => pure (some ⟨dupFd, redirFd⟩)

/-- Redirects the descriptors of the shell. After a failure nothing is restored. -/
def redirectBuiltin : List IoRedirect → Leaf World (Option (List SavedFd))
  | [] => pure (some [])
  | redir :: rest => do
      match ← processRedir redir with
      | none => pure none
      | some (fd, redirFd) =>
          match ← dupAndSaveFd fd redirFd with
          | none => pure none
          | some saved =>
              match ← redirectBuiltin rest with
              | none => pure none
              | some others => pure (some (saved :: others))

/-- Whether every descriptor was restored. -/
def restoreFds : List SavedFd → Leaf World Bool
  | [] => pure true
  | saved :: rest =>
      if saved.dupFd < 0 then restoreFds rest
      else do
        match ← call (System.dup2 saved.dupFd saved.redirFd) with
        | .error errno => do
            dupFailed errno
            pure false
        | .ok _ => do
            call (System.close saved.dupFd)
            restoreFds rest

def runBuiltin (self : Tasks World) (sc : SimpleCommand) (argv : List Str) : Exec World Int := do
  match ← leaf (redirectBuiltin sc.ioRedirects) with
  | none => pure taskStatusError
  | some fds => do
      let ret ← self.mrshRunBuiltin argv
      if ← leaf (restoreFds fds) then pure ret else pure taskStatusError

/-! ## Assignments -/

def runAssignments : List Assignment → Leaf World Int
  | [] => pure 0
  | assign :: rest => do
      let newValue ← orCrash (mrshWordStr assign.value)
      let allexport ← optionSet .allexport
      if ← envSetChecked assign.name newValue (if allexport then .exportOnly else .none) then
        runAssignments rest
      else do
        eprintf ("cannot modify readonly variable ".toList ++ assign.name ++ ['\n'])
        pure taskStatusError

/-- The assignments with their values expanded. -/
def expandAssignments (self : Tasks World) (ctx : Context) :
    List Assignment → Exec World (Int × List Assignment)
  | [] => pure (0, [])
  | assign :: rest => do
      let value ← leaf (expandTildeWord assign.value true)
      let (ret, value) ← runWord self ctx value
      if ret < 0 then pure (ret, [])
      else do
        let (ret, assigns) ← expandAssignments self ctx rest
        pure (ret, { assign with value } :: assigns)

def runOnlyAssignments (self : Tasks World) (ctx : Context) (sc : SimpleCommand) : Exec World Int := do
  let generation ← leaf newSerial
  let assignments ← leaf (orCrash (assignmentArrayCopy generation sc.assignments))
  let (ret, assignments) ← expandAssignments self ctx assignments
  if ret < 0 then pure ret else leaf (runAssignments assignments)

/-! ## Expansion of a command -/

/-- Words that are expanded without field splitting, up to the first failure. -/
def runPlainWords (self : Tasks World) (ctx : Context) : List Word → Exec World (Int × List Word)
  | [] => pure (0, [])
  | word :: words => do
      let word ← leaf (expandTildeWord word false)
      let (ret, word) ← runWord self ctx word
      if ret < 0 then pure (ret, [])
      else do
        let (ret, rest) ← runPlainWords self ctx words
        pure (ret, word :: rest)

def expandRedirects (self : Tasks World) (ctx : Context) :
    List IoRedirect → Exec World (Int × List IoRedirect)
  | [] => pure (0, [])
  | redir :: rest => do
      let (ret, name) ← runPlainWords self ctx [redir.name]
      if ret < 0 then pure (ret, [])
      else do
        let (ret, hereDocument) ← runPlainWords self ctx redir.hereDocument
        if ret < 0 then pure (ret, [])
        else do
          let (ret, redirs) ← expandRedirects self ctx rest
          pure (ret, { redir with name := name.headD .null, hereDocument } :: redirs)

/-- The parts of a command after their expansion, or the status of the failure. -/
def expandCommand (self : Tasks World) (ctx : Context) (sc : SimpleCommand) (name : Word) :
    Exec World (Except Int (SimpleCommand × List Str)) := do
  let (ret, args) ← expandWords self ctx (name :: sc.arguments)
  if ret < 0 then pure (.error ret)
  else do
    leaf (assertThat !args.isEmpty)
    let (ret, assignments) ← expandAssignments self ctx sc.assignments
    if ret < 0 then pure (.error ret)
    else do
      let (ret, ioRedirects) ← expandRedirects self ctx sc.ioRedirects
      if ret < 0 then pure (.error ret)
      else pure (.ok ({ sc with assignments, ioRedirects }, args))

/-! ## Tracing -/

/-- `expand_str`. -/
def expandStr (self : Tasks World) (src : Str) : Exec World (Option Str) := do
  let (word, parser) ← leaf (parseText src (parameterExpansionWord (productions self.fuel)))
  match word with
  | none => do
      match parser.error with
      | some (msg, pos) =>
          leaf (eprintf (decimal pos.line ++ [':'] ++ decimal pos.column ++ ": syntax error: ".toList ++
            msg ++ ['\n']))
      | none => leaf (eprintf "expand_str: unknown error\n".toList)
      pure none
  | some word => do
      let (_, word) ← mrshRunWord self word
      let str ← leaf (orCrash (mrshWordStr word))
      pure (some str)

/-- `expand_ps`. -/
def expandPs (self : Tasks World) (name : Str) : Exec World (Option Str) := do
  match ← leaf (envValue name) with
  | none => pure none
  | some ps => do
      let str ← expandStr self ps
      if str.isNone then
        leaf (eprintf ("failed to expand '".toList ++ name ++ "'\n".toList))
      pure str

def mrshGetPs4 (self : Tasks World) : Exec World Str := do
  let str ← expandPs self "PS4".toList
  pure (str.getD ['+', ' '])

def traceCommand (self : Tasks World) (args : List Str) : Exec World Unit := do
  if ← leaf (optionSet .xtrace) then
    let ps4 ← mrshGetPs4 self
    leaf (eprintf (ps4 ++ ([' '] : Str).intercalate args ++ ['\n']))

/-! ## Running a command -/

def runFunction (self : Tasks World) (ctx : Context) (body : Command) (args : List Str) :
    Exec World Int := do
  pushFrame args
  let generation ← leaf newSerial
  let body ← leaf (orCrash (mrshCommandCopy generation body))
  let ret ← self.runCommand ctx body
  popFrame
  pure ret

def runExpanded (self : Tasks World) (ctx : Context) (sc : SimpleCommand) (args : List Str) :
    Exec World Int := do
  traceCommand self args
  match ← leaf (gets (·.functions.get (args.headD []))) with
  | some body => runFunction self ctx body args
  | none =>
      if mrshHasBuiltin (args.headD []) then runBuiltin self sc args
      else leaf (runProcess self.fuel ctx sc args)

def runSimpleCommand (self : Tasks World) (ctx : Context) (sc : SimpleCommand) : Exec World Int := do
  record .simpleCommand
  match sc.name with
  | none => runOnlyAssignments self ctx sc
  | some name => do
      let generation ← leaf newSerial
      let sc ← leaf (orCrash (simpleCommandCopy generation sc))
      match ← expandCommand self ctx sc name with
      | .error ret => pure ret
      | .ok (sc, args) => runExpanded self ctx sc args

end

end Mrsh
