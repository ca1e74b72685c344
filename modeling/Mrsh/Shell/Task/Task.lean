import Mrsh.Builtin.Control

namespace Mrsh

open Mrsh.Data

/-! # Commands, pipelines and lists

The functions of `shell/task/task.c` and `shell/task/pipeline.c`, and the
recursion of the interpreter.
-/

section

variable {World : Type} [System World]

/-! ## Pipelines -/

def negate (bang : Bool) (ret : Int) : Int :=
  if bang && 0 ≤ ret then (if ret = 0 then 1 else 0) else ret

/-- The context of a pipeline, which creates a job unless there is one. -/
def withJob (ctx : Context) (node : JobNode) : Leaf World Context := do
  match ctx.job with
  | some _ => pure ctx
  | none => do
      let job ← jobCreate node
      pure { ctx with job := some job }

/-- Moves a descriptor to one of the standard ones, in a child. -/
def moveFd (fd target : Int) (name : Str) : Leaf World Bool := do
  if fd == target then pure true
  else
    match ← call (System.dup2 fd target) with
    | .error errno => do
        let msg ← strerror errno
        eprintf ("failed to duplicate ".toList ++ name ++ ": ".toList ++ msg ++ ['\n'])
        pure false
    | .ok _ => do
        call (System.close fd)
        pure true

def moveOptionalFd (fd : Option Int) (target : Int) (name : Str) : Leaf World Bool :=
  match fd with
  | none => pure true
  | some fd => moveFd fd target name

/-- The descriptors of one element of a pipeline. -/
structure PipelineFds where
  curStdin : Option Int
  curStdout : Option Int
  nextStdin : Option Int

/-- What a child does before it runs its command. The result is whether it can. -/
def preparePipelineChild (fuel : Nat) (ctx : Context) (fds : PipelineFds) : Leaf World Bool := do
  update fun core => { core with child := true }
  let pid ← call System.getpid
  let _ ← initChild ctx pid false
  leaveJobControl fuel
  match fds.nextStdin with
  | some fd => call (System.close fd)
  | none => pure ()
  if ← moveOptionalFd fds.curStdin stdinFileno "stdin".toList then
    moveOptionalFd fds.curStdout stdoutFileno "stdout".toList
  else pure false

/-- Runs a command in a child. A child that fails to move a descriptor goes on
in place of the shell, with status 0. -/
def runPipelineChild (self : Tasks World) (ctx : Context) (fds : PipelineFds) (cmd : Command) :
    Exec World Int := do
  if ← leaf (preparePipelineChild self.fuel ctx fds) then
    let ret ← self.runCommand ctx cmd
    leaf (exitProcess (if ret < 0 then 127 else ret))
  else pure 0

def closeFd (fd : Option Int) : Leaf World Unit :=
  match fd with
  | none => pure ()
  | some fd => call (System.close fd)

/-- A pipe to the next command, unless this is the last one. -/
def nextPipe (last : Bool) : Leaf World (Option (Option Int × Option Int)) := do
  if last then pure (some (none, none))
  else
    match ← call System.pipe with
    | .error errno => do
        perror "pipe".toList errno
        pure none
    | .ok fds => pure (some (some fds.1, some fds.2))

/-- Starts the commands. The result is their processes, or the status with
which the pipeline ends at once. -/
def startCommands (self : Tasks World) (ctx : Context) (curStdin : Option Int) :
    List Command → Exec World (Except Int (List Nat))
  | [] => pure (.ok [])
  | cmd :: cmds => do
      match ← leaf (nextPipe cmds.isEmpty) with
      | none => pure (.error taskStatusError)
      | some (nextStdin, curStdout) =>
          match ← leaf (call System.fork) with
          | .error _ => pure (.error taskStatusError)
          | .ok pid =>
              if pid == 0 then
                let ret ← runPipelineChild self ctx { curStdin, curStdout, nextStdin } cmd
                pure (.error ret)
              else do
                let proc ← leaf (initChild ctx pid false)
                leaf (closeFd curStdin)
                leaf (closeFd curStdout)
                match ← startCommands self ctx nextStdin cmds with
                | .error ret => pure (.error ret)
                | .ok procs => pure (.ok (proc :: procs))

/-- Waits for the processes up to the first failure. The status is that of the
last one. -/
def waitProcesses (fuel : Nat) : List Nat → Int → Leaf World Int
  | [], ret => pure ret
  | proc :: procs, _ => do
      let ret ← jobWaitProcess proc fuel
      if ret < 0 then pure ret else waitProcesses fuel procs ret

def runPipeline (self : Tasks World) (ctx : Context) (pl : Pipeline) : Exec World Int := do
  let ctx ← leaf (withJob ctx (.andOrList (.pipeline pl)))
  match pl.commands with
  | [] => leaf abort
  | [cmd] => do
      let ret ← self.runCommand ctx cmd
      pure (negate pl.bang ret)
  | cmds => do
      match ← startCommands self ctx none cmds with
      | .error ret => pure ret
      | .ok procs => do
          let ret ← leaf (waitProcesses self.fuel procs 0)
          pure (negate pl.bang ret)

/-! ## Lists -/

/-- `run_and_or_list`, for a given `run_pipeline`. A negative status of the left
operand of `||` is passed over, which `interrupted` notes. -/
def runAndOrList {m : Type → Type} [Monad m] (runPipeline : Pipeline → m Int) (interrupted : m Unit) :
    AndOrList → m Int
  | .pipeline pl => runPipeline pl
  | .binop .and left right _ => do
      let leftStatus ← runAndOrList runPipeline interrupted left
      if leftStatus != 0 then pure leftStatus else runAndOrList runPipeline interrupted right
  | .binop .or left right _ => do
      let leftStatus ← runAndOrList runPipeline interrupted left
      if leftStatus == 0 then pure 0
      else do
        if leftStatus < 0 then
          interrupted
        runAndOrList runPipeline interrupted right

/-- Without job control the input of a child is `/dev/null`. -/
def redirectStdin : Leaf World Unit := do
  if ← optionSet .monitor then pure ()
  else
    match ← call (System.openFile "/dev/null".toList .readOnly) with
    | .error errno => do
        let msg ← strerror errno
        eprintf ("failed to open /dev/null: ".toList ++ msg ++ ['\n'])
        exitProcess 1
    | .ok fd =>
        if fd == stdinFileno then pure ()
        else do
          let _ ← call (System.dup2 fd stdinFileno)
          call (System.close fd)

def runAsyncChild (self : Tasks World) (ctx : Context) (andOrList : AndOrList) : Exec World Int := do
  leaf (update fun core => { core with child := true })
  let pid ← leaf (call System.getpid)
  let _ ← leaf (initChild ctx pid true)
  leaf (leaveJobControl self.fuel)
  leaf redirectStdin
  let ret ← runAndOrList (runPipeline self ctx) (record .orInterrupted) andOrList
  leaf (exitProcess (if ret < 0 then 127 else ret))

/-- An asynchronous list. -/
def runAsync (self : Tasks World) (ctx : Context) (list : CommandList) : Exec World Int := do
  let ctx ← leaf (withJob { ctx with background := true } (.commandList list))
  match ← leaf (call System.fork) with
  | .error errno => do
      leaf (perror "fork".toList errno)
      pure taskStatusError
  | .ok pid =>
      if pid == 0 then runAsyncChild self ctx list.andOrList
      else do
        let _ ← leaf (initChild ctx pid true)
        pure 0

def runList (self : Tasks World) (ctx : Context) (list : CommandList) : Exec World Int :=
  if list.ampersand then runAsync self ctx list
  else runAndOrList (runPipeline self ctx) (record .orInterrupted) list.andOrList

/-- The loop of `run_command_list_array`, with the status so far. -/
def runLists (self : Tasks World) (ctx : Context) : List CommandList → Int → Exec World Int
  | [], ret => pure ret
  | list :: lists, _ => do
      let ret ← runList self ctx list
      if ret < 0 then pure ret
      else do
        leaf (setLastStatus ret)
        runLists self ctx lists ret

def runCommandListArray (self : Tasks World) (ctx : Context) (array : List CommandList) :
    Exec World Int := runLists self ctx array 0

/-! ## Compound commands -/

def runSubshellChild (self : Tasks World) (ctx : Context) (body : List CommandList) :
    Exec World Int := do
  leaf (update fun core => { core with child := true })
  let _ ← leaf resetCaughtTraps
  leaf redirectStdin
  let ret ← runCommandListArray self ctx body
  let exit ← leaf (gets (·.exit))
  leaf (exitProcess (if ret < 0 then 127 else if 0 ≤ exit then exit else ret))

def runSubshell (self : Tasks World) (ctx : Context) (body : List CommandList) : Exec World Int := do
  match ← leaf (call System.fork) with
  | .error errno => do
      leaf (perror "fork".toList errno)
      pure taskStatusError
  | .ok pid =>
      if pid == 0 then runSubshellChild self ctx body
      else leaf do
        let proc ← processCreate pid
        jobWaitProcess proc self.fuel

def runIfClause (self : Tasks World) (ctx : Context) (ic : IfClause) : Exec World Int := do
  let ret ← runCommandListArray self ctx ic.condition
  if ret < 0 then pure ret
  else if ret = 0 then runCommandListArray self ctx ic.body
  else
    match ic.elsePart with
    | some elsePart => self.runCommand ctx elsePart
    | none => pure 0

/-- How a round of a loop ends. -/
inductive Round where
  /-- The loop goes on with this status. -/
  | again (loopRet : Int)
  /-- The loop is left, its level is given up. -/
  | leave (loopRet : Int)
  /-- The function returns, the level of the loop is kept. -/
  | fail (ret : Int)
deriving Repr, DecidableEq

/-- After an interruption of the loop of the given level. The status is kept
when the loop goes on. -/
def interruptLoop (loopNum loopRet : Int) : Exec World Round := do
  let nloops ← leaf (gets (·.nloops))
  if nloops < loopNum then pure (.leave taskStatusInterrupted)
  else
    match ← leaf (gets (·.branchControl)) with
    | .continue => pure (.again loopRet)
    | _ => do
        record .loopInterrupted
        pure (.leave 0)

/-- The body of a loop, after whose interruption its own status is kept. -/
def runLoopBody (self : Tasks World) (ctx : Context) (loopNum : Int) (body : List CommandList) :
    Exec World Round := do
  let loopRet ← runCommandListArray self ctx body
  if loopRet == taskStatusInterrupted then interruptLoop loopNum loopRet
  else if loopRet < 0 then pure (.fail loopRet)
  else pure (.again loopRet)

def breaksLoop (type : LoopType) (ret : Int) : Bool :=
  match type with
  | .while => 0 < ret
  | .until => ret == 0

/-- One round of a `while` or `until` loop. -/
def loopRound (self : Tasks World) (ctx : Context) (lc : LoopClause) (loopNum loopRet : Int) :
    Exec World Round := do
  let ret ← runCommandListArray self ctx lc.condition
  if ret == taskStatusInterrupted then interruptLoop loopNum loopRet
  else if ret < 0 then pure (.fail ret)
  else if breaksLoop lc.type ret then pure (.leave loopRet)
  else runLoopBody self ctx loopNum lc.body

/-- Leaves the level of a loop. -/
def leaveLoop (ret : Int) : Exec World Int := do
  let nloops ← leaf (gets (·.nloops))
  control (.setLoops (nloops - 1))
  pure ret

/-- Leaves a loop because the shell exits, which keeps the status so far. -/
def stopLoop (loopRet : Int) : Exec World Int := do
  if 0 ≤ loopRet then
    record .loopInterrupted
  leaveLoop loopRet

def enterLoop : Exec World Int := do
  let nloops ← leaf (gets (·.nloops))
  control (.setLoops (nloops + 1))
  pure (nloops + 1)

/-- The rounds of a `while` or `until` loop, as long as the shell does not exit. -/
def loopRounds (self : Tasks World) (ctx : Context) (lc : LoopClause) (loopNum : Int) :
    Nat → Int → Exec World Int
  | 0, _ => leaf outOfFuel
  | fuel + 1, loopRet => do
      let exit ← leaf (gets (·.exit))
      if exit != -1 then stopLoop loopRet
      else
        match ← loopRound self ctx lc loopNum loopRet with
        | .again loopRet => loopRounds self ctx lc loopNum fuel loopRet
        | .leave loopRet => leaveLoop loopRet
        | .fail ret => pure ret

def runLoopClause (self : Tasks World) (ctx : Context) (lc : LoopClause) : Exec World Int := do
  let loopNum ← enterLoop
  loopRounds self ctx lc loopNum self.fuel 0

/-- The rounds of a `for` loop over the fields that are left. -/
def forRounds (self : Tasks World) (ctx : Context) (fc : ForClause) (loopNum : Int) :
    List Str → Int → Exec World Int
  | fields, loopRet => do
      let exit ← leaf (gets (·.exit))
      if exit != -1 then stopLoop loopRet
      else
        match fields with
        | [] => leaveLoop loopRet
        | field :: fields => do
            leaf (mrshEnvSet .forClause fc.name field .none)
            match ← runLoopBody self ctx loopNum fc.body with
            | .again loopRet => forRounds self ctx fc loopNum fields loopRet
            | .leave loopRet => leaveLoop loopRet
            | .fail ret => pure ret

def runForClause (self : Tasks World) (ctx : Context) (fc : ForClause) : Exec World Int := do
  let loopNum ← enterLoop
  let (ret, fields) ← expandWords self ctx fc.wordList
  if ret < 0 then pure ret else forRounds self ctx fc loopNum fields 0

/-- Whether an expanded pattern matches. -/
def matchPattern (pattern : Word) (wordStr : Str) : Leaf World Bool := do
  match ← orCrash (wordToPattern pattern) with
  | some pattern => pure (System.fnmatch World pattern wordStr)
  | none => do
      let str ← orCrash (mrshWordStr pattern)
      pure (str == wordStr)

/-- Expands the patterns of an item in place up to the first one that matches. -/
def matchPatterns (self : Tasks World) (ctx : Context) (addr : Address) (wordStr : Str) :
    List Word → List Word → Exec World (Except Int Bool)
  | _, [] => pure (.ok false)
  | before, pattern :: after => do
      let word ← leaf (expandTildeWord pattern false)
      let (ret, word) ← runWord self ctx word
      control (.setPatterns addr before pattern word after)
      if ret < 0 then pure (.error ret)
      else if ← leaf (matchPattern word wordStr) then pure (.ok true)
      else matchPatterns self ctx addr wordStr (before ++ [word]) after

def runCaseItems (self : Tasks World) (ctx : Context) (wordStr : Str) :
    List CaseItem → Exec World Int
  | [] => pure 0
  | ci :: items => do
      let patterns ← leaf (gets fun state => (state.casePatterns ci.addr).getD ci.patterns)
      match ← matchPatterns self ctx ci.addr wordStr [] patterns with
      | .error ret => pure ret
      | .ok true => runCommandListArray self ctx ci.body
      | .ok false => runCaseItems self ctx wordStr items

def runCaseClause (self : Tasks World) (ctx : Context) (cc : CaseClause) : Exec World Int := do
  let word ← leaf (copyWord cc.word)
  let word ← leaf (expandTildeWord word false)
  let (ret, word) ← runWord self ctx word
  if ret < 0 then pure ret
  else do
    let wordStr ← leaf (orCrash (mrshWordStr word))
    runCaseItems self ctx wordStr cc.items

def runFunctionDefinition (fnd : FunctionDefinition) : Leaf World Int := do
  let generation ← newSerial
  let body ← orCrash (mrshCommandCopy generation fnd.body)
  update fun core => { core with functions := core.functions.set fnd.name body }
  pure 0

def runCommand (self : Tasks World) (ctx : Context) : Command → Exec World Int
  | .simpleCommand sc => runSimpleCommand self ctx sc
  | .braceGroup bg => runCommandListArray self ctx bg.body
  | .subshell s => runSubshell self ctx s.body
  | .ifClause ic => runIfClause self ctx ic
  | .loopClause lc => runLoopClause self ctx lc
  | .forClause fc => runForClause self ctx fc
  | .caseClause cc => runCaseClause self ctx cc
  | .functionDefinition fnd => leaf (runFunctionDefinition fnd)

/-! ## Terminated jobs -/

/-- `show_job` of `shell/task/task.c`. -/
def showJob (serial : Nat) (current previous : Option Nat) (r : Bool) : Leaf World Unit := do
  let job ← findJob serial
  let cmd ← orCrash (mrshNodeFormat job.node)
  let state ← jobStateStr serial r
  eprintf (['['] ++ decimal job.jobId ++ "] ".toList ++ [jobMark serial current previous, ' '] ++ state ++
    [' '] ++ cmd ++ ['\n'])

/-- Shows a job whose notification is pending, with the option `notify`. -/
def showPending (job : Job) (current previous : Option Nat) (r : Bool) : Leaf World Unit := do
  let notify ← gets (·.options .notify)
  if notify && job.pendingNotification then do
    showJob job.serial current previous r
    modifyJob job.serial fun job => { job with pendingNotification := false }

def sizeModulus : Nat := 2 ^ 64

/-- The loop of `mrsh_destroy_terminated_jobs`. The index is unsigned and goes back by
one, past zero too, when its job is removed. -/
def destroyTerminatedLoop (current previous : Option Nat) (r : Bool) : Nat → Nat → Leaf World Unit
  | 0, _ => outOfFuel
  | fuel + 1, i => do
      let jobs ← gets (·.jobs)
      match jobs[i]? with
      | none => pure ()
      | some job => do
          let status ← jobPoll job.serial
          showPending job current previous r
          if 0 ≤ status then do
            jobDestroy job.serial
            destroyTerminatedLoop current previous r fuel (((i + sizeModulus - 1) % sizeModulus + 1) % sizeModulus)
          else destroyTerminatedLoop current previous r fuel ((i + 1) % sizeModulus)

def mrshDestroyTerminatedJobs (fuel : Nat) : Leaf World Unit := do
  let current ← jobById "%+".toList false
  let previous ← jobById "%-".toList false
  let random ← call System.rand
  let _ ← refreshJobsStatus fuel
  let jobs ← gets (·.jobs)
  destroyTerminatedLoop current previous (random % 2 == 0) (jobs.length + 1) 0

/-! ## Programs -/

/-- `mrsh_run_program`, whose recursive calls are those of `self`. -/
def runProgram (self : Tasks World) (prog : Program) : Exec World Int := do
  let ret ← runCommandListArray self .initial prog.body
  let _ ← runPendingTraps self.fuel self.mrshRunProgram
  if 0 ≤ ret then
    record .programCompleted
  pure ret

def Tasks.exhausted : Tasks World where
  fuel := 0
  runWord _ _ := leaf outOfFuel
  runCommand _ _ := leaf outOfFuel
  mrshRunProgram _ := leaf outOfFuel
  mrshRunBuiltin _ := leaf outOfFuel

def tasks : Nat → Tasks World
  | 0 => .exhausted
  | fuel + 1 =>
      let self := tasks fuel
      { fuel
        runWord := runWord self
        runCommand := runCommand self
        mrshRunProgram := runProgram self
        mrshRunBuiltin := mrshRunBuiltin self }

def mrshRunProgram (fuel : Nat) (prog : Program) : Exec World Int := runProgram (tasks fuel) prog

end

end Mrsh
