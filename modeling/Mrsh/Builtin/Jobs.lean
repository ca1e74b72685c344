import Mrsh.Builtin.Getopt
import Mrsh.Shell.Job

namespace Mrsh

open Mrsh.Data

/-! # The builtins for jobs

`bg`, `fg`, `jobs` and `wait`.
-/

section

variable {World : Type} [System World]

def bgUsage : Str := "usage: bg [job_id...]\n".toList

/-- Puts a job in the background and lets it go on. -/
def bgJobs : List Str → Leaf World Int
  | [] => pure 0
  | id :: ids => do
      match ← jobById id true with
      | none => pure 1
      | some job => do
          if ← jobSetForeground job false true then bgJobs ids else pure 1

def builtinBg (args : List Str) : Leaf World Int := do
  match ← noOptions args "bg".toList bgUsage with
  | .error status => pure status
  | .ok _ => do
      match ← operandsOf args with
      | [] => bgJobs ["%%".toList]
      | ids => bgJobs ids

def fgUsage : Str := "usage: fg [job_id]\n".toList

def fgJob (fuel : Nat) (id : Str) : Leaf World Int := do
  match ← jobById id true with
  | none => pure 1
  | some job => do
      if ← jobSetForeground job true true then jobWait job fuel else pure 1

def builtinFg (fuel : Nat) (args : List Str) : Leaf World Int := do
  match ← noOptions args "fg".toList fgUsage with
  | .error status => pure status
  | .ok _ => do
      match ← operandsOf args with
      | [] => fgJob fuel "%%".toList
      | [id] => fgJob fuel id
      | _ => usageError fgUsage

/-! ## Listing jobs -/

def jobsUsage : Str := "usage: jobs [-l|-p] [job_id...]\n".toList

/-- What `jobs` prints of a job. -/
inductive JobsFormat where
  | state | pids | pgids
deriving DecidableEq

structure JobsContext where
  current : Option Nat
  previous : Option Nat
  format : JobsFormat
  r : Bool

def printPids : List Process → Leaf World Unit
  | [] => pure ()
  | proc :: procs => do
      printf (decimal proc.pid ++ ['\n'])
      printPids procs

/-- `show_job` of `builtin/jobs.c`. -/
def listJob (ctx : JobsContext) (serial : Nat) : Leaf World Unit := do
  let status ← jobPoll serial
  if 0 ≤ status then pure ()
  else do
    let job ← findJob serial
    if ctx.format == .pids then do
      let procs ← jobProcesses job
      printPids procs
    else do
      let cmd ← orCrash (mrshNodeFormat job.node)
      let state ← jobStateStr serial ctx.r
      let pgid := if ctx.format == .pgids then decimal job.pgid ++ [' '] else []
      printf (['['] ++ decimal job.jobId ++ "] ".toList ++
        [jobMark serial ctx.current ctx.previous, ' '] ++ pgid ++ state ++ [' '] ++ cmd ++ ['\n'])

def listJobs (ctx : JobsContext) : List Nat → Leaf World Unit
  | [] => pure ()
  | serial :: rest => do
      listJob ctx serial
      listJobs ctx rest

def listJobIds (ctx : JobsContext) : List Str → Leaf World Int
  | [] => pure 0
  | id :: ids => do
      match ← jobById id true with
      | none => pure 1
      | some serial => do
          listJob ctx serial
          listJobIds ctx ids

/-- The two formats exclude each other. -/
def chooseFormat (other format chosen : JobsFormat) : Leaf World (Except Int JobsFormat) := do
  if format == other then do
    eprintf "jobs: the -p and -l options are mutually exclusive\n".toList
    pure (.error 1)
  else pure (.ok chosen)

def builtinJobs (args : List Str) : Leaf World Int := do
  let current ← jobById "%+".toList false
  let previous ← jobById "%-".toList false
  let random ← call System.rand
  match ← forOptions args ":lp".toList .state fun format opt =>
      if opt == 'l' then chooseFormat .pids format .pgids
      else if opt == 'p' then chooseFormat .pgids format .pids
      else unknownOption "jobs: unknown option -- ".toList jobsUsage with
  | .error status => pure status
  | .ok format => do
      let ctx : JobsContext := { current, previous, format, r := random % 2 == 0 }
      match ← operandsOf args with
      | [] => do
          let jobs ← gets (·.jobs)
          listJobs ctx (jobs.map (·.serial))
          pure 0
      | ids => listJobIds ctx ids

/-! ## Waiting -/

/-- A process to wait for, and the status that is known of it. -/
structure WaitHandle where
  pid : Int
  status : Int

/-- The handle of one operand, unless it is wrong. -/
def waitHandle (arg : Str) : Leaf World (Option WaitHandle) := do
  if arg.head? == some '%' then
    match ← jobById arg true with
    | none => pure none
    | some serial => do
        let job ← findJob serial
        pure (some ⟨job.pgid, -1⟩)
  else do
    let scanned := strtol 10 arg
    let pid := toInt32 scanned.value
    if !scanned.rest.isEmpty || arg.isEmpty then do
      eprintf ("wait: error parsing pid '".toList ++ arg ++ ['\''])
      pure none
    else if pid ≤ 0 then do
      eprintf "wait: invalid process ID\n".toList
      pure none
    else do
      let processes ← gets (·.processes)
      match processes.find? (·.pid == pid) with
      | none => pure (some ⟨pid, 127⟩)
      | some process => pure (some ⟨pid, if process.terminated then process.stat else -1⟩)

def waitHandles : List Str → Leaf World (Option (List WaitHandle))
  | [] => pure (some [])
  | arg :: args => do
      match ← waitHandle arg with
      | none => pure none
      | some handle =>
          match ← waitHandles args with
          | none => pure none
          | some handles => pure (some (handle :: handles))

/-- Waits for each process. The result is the status of the last one, which is
0 when there is none. -/
def waitForHandles : List WaitHandle → Int → Leaf World (Option Int)
  | [], last => pure (some last)
  | handle :: handles, _ => do
      match ← call (System.waitpid handle.pid false false) with
      | .error .echild => waitForHandles handles handle.status
      | .error errno => do
          perror "wait".toList errno
          pure none
      | .ok (waited, stat) => do
          updateProcess waited stat
          waitForHandles handles (if wifexited stat then wexitstatus stat else 129)

def builtinWait (args : List Str) : Leaf World Int := do
  match args.tail with
  | [] => do
      let processes ← gets (·.processes)
      let running := processes.filter (!·.terminated)
      match ← waitForHandles (running.map fun process => ⟨process.pid, -1⟩) 0 with
      | none => pure 1
      | some _ => pure 0
  | operands =>
      match ← waitHandles operands with
      | none => pure 1
      | some handles =>
          match ← waitForHandles handles 0 with
          | none => pure 1
          | some status => pure status

end

end Mrsh
