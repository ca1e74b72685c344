import Mrsh.AstFormat
import Mrsh.Shell.Trap

namespace Mrsh

open Mrsh.Data

/-! # Processes and jobs

The functions of `shell/process.c` and `shell/job.c`. Using a process or a job
that was destroyed stops the run.
-/

def taskStatusWait : Int := -1

def taskStatusError : Int := -2

def taskStatusStopped : Int := -3

def taskStatusInterrupted : Int := -4

section

variable {World : Type}

/-! ## Processes -/

def processCreate (pid : Int) : Leaf World Nat := do
  let serial ← newSerial
  update fun core =>
    { core with
      processes := core.processes ++
        [{ serial, pid, stopped := false, terminated := false, stat := 0, signal := 0 }] }
  pure serial

def findProcess (serial : Nat) : Leaf World Process := do
  let processes ← gets (·.processes)
  orCrash (processes.find? (·.serial == serial))

def processDestroy (serial : Nat) : Leaf World Unit := do
  let _ ← findProcess serial
  update fun core => { core with processes := core.processes.filter (·.serial != serial) }

/-- `none` where a terminated process has no terminating status. -/
def processPoll (proc : Process) : Option Int :=
  if proc.stopped then some taskStatusStopped
  else if !proc.terminated then some taskStatusWait
  else if wifexited proc.stat then some (wexitstatus proc.stat)
  else if wifsignaled proc.stat then some 129
  else none

def modifyProcess (serial : Nat) (change : Process → Process) : Leaf World Unit :=
  update fun core =>
    { core with
      processes := core.processes.map fun proc =>
        if proc.serial = serial then change proc else proc }

def updateProcess (pid : Int) (stat : Nat) : Leaf World Unit := do
  let processes ← gets (·.processes)
  match processes.find? (·.pid == pid) with
  | none => pure ()
  | some proc =>
      if wifexited stat || wifsignaled stat then
        modifyProcess proc.serial fun proc => { proc with terminated := true, stat }
      else if wifstopped stat then
        modifyProcess proc.serial fun proc => { proc with stopped := true, signal := wstopsig stat }
      else abort

/-! ## Jobs -/

def findJob (serial : Nat) : Leaf World Job := do
  let jobs ← gets (·.jobs)
  orCrash (jobs.find? (·.serial == serial))

def modifyJob (serial : Nat) (change : Job → Job) : Leaf World Unit :=
  update fun core =>
    { core with
      jobs := core.jobs.map fun job => if job.serial = serial then change job else job }

def mrshNodeCopy (generation : Nat) : JobNode → Option JobNode
  | .andOrList node => (mrshAndOrListCopy generation node).map .andOrList
  | .commandList node => (mrshCommandListCopy generation node).map .commandList

def mrshNodeFormat : JobNode → Option Str
  | .andOrList node => formatAndOrList node
  | .commandList node => formatList node

def nextJobId (jobs : List Job) : Int :=
  jobs.foldl (fun id job => if id < job.jobId + 1 then job.jobId + 1 else id) 1

/-- The numbers of the jobs are of type `int`, and the addition to the last one is undefined. -/
def jobCreate (node : JobNode) : Leaf World Nat := do
  let jobs ← gets (·.jobs)
  assertThat (jobs.all (·.jobId < intMax))
  let serial ← newSerial
  let node ← orCrash (mrshNodeCopy serial node)
  update fun core =>
    { core with
      jobs := core.jobs ++
        [{ serial, node, pgid := -1, jobId := nextJobId core.jobs, termModes := 0,
           processes := [], pendingNotification := false, lastStatus := taskStatusWait }] }
  pure serial

def jobPollLoop : List Process → Int → Bool → Option Int
  | [], status, stopped => some (if stopped then taskStatusStopped else status)
  | proc :: procs, _, stopped => do
      let status ← processPoll proc
      if status == taskStatusWait then some taskStatusWait
      else jobPollLoop procs status (stopped || status == taskStatusStopped)

def jobProcesses (job : Job) : Leaf World (List Process) := job.processes.mapM findProcess

def jobPoll (serial : Nat) : Leaf World Int := do
  let job ← findJob serial
  let procs ← jobProcesses job
  orCrash (jobPollLoop procs 0 false)

def jobQueueNotification (serial : Nat) : Leaf World Unit := do
  let status ← jobPoll serial
  let foregroundJob ← gets (·.foregroundJob)
  modifyJob serial fun job =>
    { job with
      pendingNotification := job.pendingNotification ||
        (status != job.lastStatus && 0 < job.pgid && foregroundJob != some serial)
      lastStatus := status }

def setForegroundJob (foregroundJob : Option Nat) : Leaf World Unit :=
  update fun core => { core with foregroundJob }

def jobGetRunningProcess (job : Job) : Leaf World (Option Process) := do
  let procs ← jobProcesses job
  pure (procs.find? fun proc => processPoll proc == some taskStatusWait)

variable [System World]

def jobAddProcess (serial proc : Nat) : Leaf World Unit := do
  let job ← findJob serial
  let proc ← findProcess proc
  let pgid := if job.pgid ≤ 0 then proc.pid else job.pgid
  modifyJob serial fun job => { job with pgid }
  match ← call (System.setpgid proc.pid pgid) with
  | .error errno =>
      if errno == .eperm then
        modifyJob serial fun job => { job with processes := job.processes ++ [proc.serial] }
      else perror "setpgid".toList errno
  | .ok _ => modifyJob serial fun job => { job with processes := job.processes ++ [proc.serial] }

/-- Puts the job in the foreground. -/
def jobToForeground (job : Job) (cont : Bool) : Leaf World Unit := do
  let foregroundJob ← gets (·.foregroundJob)
  if foregroundJob == some job.serial then pure ()
  else do
    assertThat foregroundJob.isNone
    let _ ← call (System.tcsetpgrp job.pgid)
    if cont then
      let _ ← call (System.tcsetattr job.termModes)
    setForegroundJob (some job.serial)

/-- Puts the shell back in the foreground, if the job is in it. -/
def jobToBackground (job : Job) : Leaf World Unit := do
  let foregroundJob ← gets (·.foregroundJob)
  if foregroundJob == some job.serial then
    let pgid ← gets (·.pgid)
    let _ ← call (System.tcsetpgrp pgid)
    match ← call System.tcgetattr with
    | .ok termModes => modifyJob job.serial fun job => { job with termModes }
    | .error _ => pure ()
    let termModes ← gets (·.termModes)
    let _ ← call (System.tcsetattr termModes)
    setForegroundJob none
  else pure ()

def jobSetForeground (serial : Nat) (foreground cont : Bool) : Leaf World Bool := do
  let job ← findJob serial
  assertThat (0 < job.pgid)
  if ← gets (·.jobControl) then
    let status ← jobPoll serial
    let cont := cont && status == taskStatusStopped
    if foreground then jobToForeground job cont else jobToBackground job
    if cont then
      match ← call (System.kill (-job.pgid) sigcont) with
      | .error errno => do
          perror "kill".toList errno
          pure false
      | .ok _ => do
          update fun core =>
            { core with
              processes := core.processes.map fun proc =>
                if proc.serial ∈ job.processes then { proc with stopped := false } else proc }
          jobQueueNotification serial
          pure true
    else do
      jobQueueNotification serial
      pure true
  else pure false

def destroyProcesses : List Nat → Leaf World Unit
  | [] => pure ()
  | serial :: rest => do
      processDestroy serial
      destroyProcesses rest

def jobDestroy (serial : Nat) : Leaf World Unit := do
  let job ← findJob serial
  if (← gets (·.foregroundJob)) == some serial then
    let _ ← jobSetForeground serial false false
  update fun core => { core with jobs := core.jobs.filter (·.serial != serial) }
  destroyProcesses job.processes

/-! ## Job control -/

/-- Loops until the shell is in the foreground. -/
def waitForForeground : Nat → Leaf World Unit
  | 0 => outOfFuel
  | fuel + 1 => do
      let pgid ← call System.getpgrp
      let foreground ← call System.tcgetpgrp
      if foreground == pgid then pure ()
      else do
        let _ ← call (System.kill (-pgid) sigttin)
        waitForForeground fuel

def perrorFalse (text : Str) (errno : Errno) : Leaf World Bool := do
  perror text errno
  pure false

/-- Takes control of the terminal. -/
def grabTerminal (pgid : Int) : Leaf World Bool := do
  match ← call (System.tcsetpgrp pgid) with
  | .error errno => perrorFalse "tcsetpgrp".toList errno
  | .ok _ =>
      match ← call System.tcgetattr with
      | .error errno => perrorFalse "tcgetattr".toList errno
      | .ok termModes => do
          update fun core => { core with termModes, jobControl := true }
          pure true

def enableJobControl (fuel : Nat) : Leaf World Bool := do
  waitForForeground fuel
  let _ ← setJobControlTraps true
  let pgid ← call System.getpid
  update fun core => { core with pgid }
  let session ← call System.getsid
  if session != pgid then
    match ← call (System.setpgid pgid pgid) with
    | .error errno => perrorFalse "setpgid".toList errno
    | .ok _ => grabTerminal pgid
  else grabTerminal pgid

def mrshSetJobControl (fuel : Nat) (enabled : Bool) : Leaf World Bool := do
  if (← gets (·.jobControl)) == enabled then pure true
  else if enabled then enableJobControl fuel
  else do
    let _ ← setJobControlTraps false
    update fun core => { core with jobControl := false }
    pure true

def initJobChildProcess (fuel : Nat) : Leaf World Unit := do
  let _ ← mrshSetJobControl fuel false

/-! ## Waiting -/

/-- The loop of `update_job` over the jobs. -/
def updateJobs : List Nat → Leaf World Unit
  | [] => pure ()
  | serial :: rest => do
      let status ← jobPoll serial
      if 0 ≤ status then jobQueueNotification serial
      let job ← findJob serial
      if status != taskStatusWait && 0 < job.pgid then
        let _ ← jobSetForeground serial false false
      updateJobs rest

def updateJob (pid : Int) (stat : Nat) : Leaf World Unit := do
  updateProcess pid stat
  if ← gets (·.jobControl) then
    let jobs ← gets (·.jobs)
    updateJobs (jobs.map (·.serial))
  else pure ()

/-- The loop of `_job_wait`. -/
def waitpidLoop (pid : Int) (nohang untraced : Bool) : Nat → Leaf World Bool
  | 0 => outOfFuel
  | fuel + 1 => do
      match ← call (System.waitpid pid nohang untraced) with
      | .ok (ret, stat) =>
          if ret == 0 then do
            assertThat nohang
            pure true
          else do
            assertThat (ret == pid)
            updateJob ret stat
            pure true
      | .error .eintr => waitpidLoop pid nohang untraced fuel
      | .error errno => do
          let msg ← strerror errno
          eprintf ("waitpid(".toList ++ decimal pid ++ "): ".toList ++ msg ++ ['\n'])
          pure false

def jobWaitPid (fuel : Nat) (pid : Int) (nohang : Bool) : Leaf World Bool := do
  let self ← call System.getpid
  assertThat (0 < pid && pid != self)
  let child ← gets (·.child)
  waitpidLoop pid nohang (!child) fuel

def jobWait (serial : Nat) : Nat → Leaf World Int
  | 0 => outOfFuel
  | fuel + 1 => do
      let status ← jobPoll serial
      if status != taskStatusWait then pure status
      else do
        let job ← findJob serial
        let proc ← jobGetRunningProcess job
        let proc ← orCrash proc
        if ← jobWaitPid fuel proc.pid false then jobWait serial fuel
        else pure taskStatusError

def jobWaitProcess (serial : Nat) : Nat → Leaf World Int
  | 0 => outOfFuel
  | fuel + 1 => do
      let proc ← findProcess serial
      let status ← orCrash (processPoll proc)
      if status != taskStatusWait then pure status
      else if ← jobWaitPid fuel proc.pid false then jobWaitProcess serial fuel
      else pure taskStatusError

def refreshJobs (fuel : Nat) : List Nat → Leaf World Bool
  | [] => pure true
  | serial :: rest => do
      let job ← findJob serial
      match ← jobGetRunningProcess job with
      | none => refreshJobs fuel rest
      | some proc =>
          if ← jobWaitPid fuel proc.pid true then refreshJobs fuel rest else pure false

def refreshJobsStatus (fuel : Nat) : Leaf World Bool := do
  let jobs ← gets (·.jobs)
  refreshJobs fuel (jobs.map (·.serial))

/-! ## Finding and showing jobs -/

/-- The jobs whose status is the given one, in the order of the list. -/
def jobsWithStatus (status : Int) : List Nat → Leaf World (List Nat)
  | [] => pure []
  | serial :: rest => do
      let polled ← jobPoll serial
      let others ← jobsWithStatus status rest
      pure (if polled == status then serial :: others else others)

/-- A message, and no job. -/
def noJob (interactive : Bool) (msg : Str) : Leaf World (Option Nat) := do
  if interactive then eprintf msg
  pure none

/-- The stopped job at the index, or else the running one, counted from the last. -/
def recentJob (interactive : Bool) (index : Nat) (msg : Str) : Leaf World (Option Nat) := do
  let jobs ← gets (·.jobs)
  let recent := (jobs.map (·.serial)).reverse
  let stopped ← jobsWithStatus taskStatusStopped recent
  match stopped[index]? with
  | some serial => pure (some serial)
  | none => do
      let running ← jobsWithStatus taskStatusWait recent
      match running[index]? with
      | some serial => pure (some serial)
      | none => noJob interactive msg

def isInfix (part : Str) (str : Str) : Bool := str.tails.any fun tail => part.isPrefixOf tail

/-- The first job whose text matches. -/
def jobByText (matches_ : Str → Bool) : List Job → Leaf World (Option Nat)
  | [] => pure none
  | job :: rest => do
      let cmd ← orCrash (mrshNodeFormat job.node)
      if matches_ cmd then pure (some job.serial) else jobByText matches_ rest

def jobByNumber (id : Str) (number : Str) (interactive : Bool) : Leaf World (Option Nat) := do
  let scanned := strtol 10 number
  let n := toInt32 scanned.value
  if !scanned.rest.isEmpty then
    noJob interactive ("Invalid job number '".toList ++ id ++ "'\n".toList)
  else do
    let jobs ← gets (·.jobs)
    match jobs.find? (·.jobId == n) with
    | some job => pure (some job.serial)
    | none =>
        noJob interactive
          ("No such job '".toList ++ id ++ "' (".toList ++ decimal n ++ ")\n".toList)

def jobById (id : Str) (interactive : Bool) : Leaf World (Option Nat) := do
  match id with
  | ['%', '%'] => recentJob interactive 0 "No current job\n".toList
  | ['%', '+'] => recentJob interactive 0 "No current job\n".toList
  | ['%', '-'] => recentJob interactive 1 "No previous job\n".toList
  | '%' :: c :: rest =>
      if c.isDigit then jobByNumber id (c :: rest) interactive
      else do
        let jobs ← gets (·.jobs)
        match ← jobByText (if c == '?' then isInfix rest else (c :: rest).isPrefixOf) jobs with
        | some serial => pure (some serial)
        | none => noJob interactive ("No such job '".toList ++ id ++ "'\n".toList)
  | _ => noJob interactive "Invalid job ID specifier\n".toList

def stoppedStr (r : Bool) (signal : Option Nat) : Str :=
  let name := if r then "Stopped".toList else "Suspended".toList
  if signal == some sigstop then name ++ " (SIGSTOP)".toList
  else if signal == some sigttin then name ++ " (SIGTTIN)".toList
  else if signal == some sigttou then name ++ " (SIGTTOU)".toList
  else name

def jobStateStr (serial : Nat) (r : Bool) : Leaf World Str := do
  let status ← jobPoll serial
  let job ← findJob serial
  let procs ← jobProcesses job
  if status == taskStatusWait then pure "Running".toList
  else if status == taskStatusError then pure "Error".toList
  else if status == taskStatusStopped then pure (stoppedStr r (procs.head?.map (·.signal)))
  else
    match procs.head? with
    | some proc =>
        if proc.stat != 0 then pure ("Done(".toList ++ decimal proc.stat ++ [')'])
        else pure "Done".toList
    | none => pure "Done".toList

def jobMark (serial : Nat) (current previous : Option Nat) : Char :=
  if some serial == current then '+' else if some serial == previous then '-' else ' '

end

end Mrsh
