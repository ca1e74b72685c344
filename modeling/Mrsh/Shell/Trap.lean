import Mrsh.Shell.State

namespace Mrsh

open Mrsh.Data

/-! # Traps

The functions of `shell/trap.c`. A signal is counted by its handler when it
arrives, which the model lets happen before each test of a counter.
-/

def ignoredJobControlSigs : List Nat := [sigint, sigquit, sigtstp, sigttin, sigttou]

def handlerOf : TrapAction → Handler
  | .default => .default
  | .ignore => .ignore
  | .catch => .catch

section

variable {World : Type}

def setTrapEntry (index : Nat) (trap : Trap) : Leaf World Unit :=
  update fun core =>
    { core with traps := fun other => if other = index then trap else core.traps other }

/-- `mrsh_program_destroy`. Freeing a program twice is undefined, so the run stops after it. -/
def destroyTrapProgram (program : Option TrapProgram) : Leaf World Unit :=
  match program with
  | none => pure ()
  | some program => do
      let freed ← gets (·.freedPrograms)
      update fun core => { core with freedPrograms := program.serial :: core.freedPrograms }
      assertThat (!freed.contains program.serial)

/-- Replaces an entry of the table and frees its program. -/
def replaceTrap (index : Nat) (trap : Trap) : Leaf World Unit := do
  let old ← gets (·.traps index)
  destroyTrapProgram old.program
  setTrapEntry index trap

def countSignal (counts : Nat → Int) (sig : Nat) : Nat → Int :=
  fun other => if other = sig then counts other + 1 else counts other

def setPending (index : Nat) (count : Int) : Leaf World Unit :=
  update fun core =>
    { core with
      pendingSigs := fun other => if other = index then count else core.pendingSigs other }

def setInTrap (inTrap : Bool) : Leaf World Unit := update fun core => { core with inTrap }

variable [System World]

/-- `handle_signal` for the signals that arrived. -/
def handleSignals : Leaf World Unit := do
  let sigs ← call System.signals
  update fun core =>
    { core with pendingSigs := (sigs.filter (· < nsig)).foldl countSignal core.pendingSigs }

/-- Whether a signal that was not trapped before may be trapped. -/
def mayTrap (sig : Nat) : Leaf World Bool := do
  let trap ← gets (·.traps sig)
  let interactive ← gets (·.interactive)
  if !trap.set && !interactive then
    match ← call (System.getHandler sig) with
    | .error errno => do
        perror "failed to get current signal action: sigaction".toList errno
        pure false
    | .ok .ignore => do
        eprintf ("cannot trap signal ".toList ++ decimal sig ++
          ": ignored on non-interactive shell entry\n".toList)
        pure false
    | .ok _ => pure true
  else pure true

/-- The action that is installed: with job control some signals are ignored by default. -/
def installedAction (sig : Nat) (action : TrapAction) : Leaf World TrapAction := do
  let jobControl ← gets (·.jobControl)
  pure (if action == .default && jobControl && ignoredJobControlSigs.contains sig then .ignore else action)

def setTrap (sig : Nat) (action : TrapAction) (program : Option TrapProgram) : Leaf World Bool := do
  assertThat (action == .catch || program.isNone)
  if sig == 0 then
    replaceTrap sig { set := true, action, program }
    pure true
  else if ← mayTrap sig then
    let action ← installedAction sig action
    match ← call (System.sigaction sig (handlerOf action)) with
    | .error errno => do
        perror "failed to set signal action: sigaction".toList errno
        pure false
    | .ok _ => do
        replaceTrap sig { set := true, action, program }
        pure true
  else pure false

/-- The loop of `set_job_control_traps`, whose counter is also the index of the
table entry that it resets. -/
def setJobControlTrapsLoop (enabled : Bool) : List (Nat × Nat) → Leaf World Bool
  | [] => pure true
  | (sig, i) :: rest => do
      match ← call (System.sigaction sig (if enabled then .ignore else .default)) with
      | .error errno => do
          perror "sigaction".toList errno
          pure false
      | .ok _ => do
          replaceTrap i { set := false, action := .default, program := none }
          setJobControlTrapsLoop enabled rest

def setJobControlTraps (enabled : Bool) : Leaf World Bool :=
  setJobControlTrapsLoop enabled ignoredJobControlSigs.zipIdx

def resetCaughtTrapsLoop : List Nat → Leaf World Bool
  | [] => pure true
  | sig :: rest => do
      let trap ← gets (·.traps sig)
      if trap.set && trap.action != .ignore then
        if ← setTrap sig .default none then resetCaughtTrapsLoop rest
        else pure false
      else resetCaughtTrapsLoop rest

def resetCaughtTraps : Leaf World Bool := resetCaughtTrapsLoop (List.range nsig)

/-! ## Running the actions -/

def runAction {α : Type} (action : Exec World α) : Exec World α := do
  control .enterAction
  let ret ← action
  control .leaveAction
  pure ret

section

variable (runProgram : Program → Exec World Int) (lastStatus : Int)

/-- Runs the action of the trap as often as the signal is pending. -/
def runPendingTrap (index : Nat) : Nat → Exec World Bool
  | 0 => leaf outOfFuel
  | fuel + 1 => do
      leaf handleSignals
      let count ← leaf (gets (·.pendingSigs index))
      let trap ← leaf (gets (·.traps index))
      if count ≤ 0 then pure true
      else
        match if trap.set && trap.action == .catch then trap.program else none with
        | none => pure true
        | some program => do
            let freed ← leaf (gets (·.freedPrograms))
            leaf (assertThat (!freed.contains program.serial))
            let ret ← runAction (runProgram program.program)
            if ret < 0 then pure false
            else do
              let count ← leaf (gets (·.pendingSigs index))
              leaf (setPending index (count - 1))
              leaf (setLastStatus lastStatus)
              runPendingTrap index fuel

def runPendingTrapsLoop (fuel : Nat) : List Nat → Exec World Bool
  | [] => do
      leaf (setInTrap false)
      pure true
  | index :: rest => do
      if ← runPendingTrap runProgram lastStatus index fuel then
        leaf (setPending index 0)
        runPendingTrapsLoop fuel rest
      else pure false

end

def runPendingTraps (fuel : Nat) (runProgram : Program → Exec World Int) : Exec World Bool := do
  if ← leaf (gets (·.inTrap)) then pure true
  else do
    leaf (setInTrap true)
    let lastStatus ← leaf (gets (·.lastStatus))
    runPendingTrapsLoop runProgram lastStatus fuel (List.range nsig)

def runExitTrap (fuel : Nat) (runProgram : Program → Exec World Int) : Exec World Bool := do
  let count ← leaf (gets (·.pendingSigs 0))
  leaf (setPending 0 (count + 1))
  runPendingTraps fuel runProgram

end

end Mrsh
