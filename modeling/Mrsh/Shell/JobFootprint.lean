import Mrsh.Data.Conditions
import Mrsh.Shell.Task.SimpleCommand

namespace Mrsh

open Mrsh.Data

/-! # What the job functions change

The job functions change the processes and the jobs, and those of job control the traps and
the terminal as well. A relation that allows these changes holds across all of them, so that
what else they leave alone is said by the choice of the relation.
-/

section

variable {World α β : Type} {relation : Shell World → Shell World → Prop}

/-- Every run of the program stays within the relation. -/
abbrev Within (relation : Shell World → Shell World → Prop) (prog : Leaf World α) : Prop :=
  prog.Respects handleLeaf relation

def AllowsCall (relation : Shell World → Shell World → Prop) (request : World → α × World) : Prop :=
  ∀ state, relation state { state with world := (request state.world).2 }

namespace Within

variable [Std.Refl relation]

theorem pure (value : α) : Within relation (pure value : Leaf World α) := Prog.Respects.pure value

theorem stop (reason : Ending) : Within relation (Prog.stop reason : Leaf World α) := Prog.Respects.stop reason

theorem gets (read : Shell World → α) : Within relation (gets read) := fun state => Std.Refl.refl state

theorem orCrash (value : Option α) : Within relation (orCrash value : Leaf World α) := by
  cases value with
  | none => exact .stop _
  | some value => exact .pure _

theorem assertThat (condition : Bool) : Within relation (assertThat condition : Leaf World Unit) :=
  Prog.Respects.ite (.pure _) (.stop _)

omit [Std.Refl relation]

theorem update {change : Core World → Core World}
    (allowed : ∀ state : Shell World, relation state { state with toCore := change state.toCore }) :
    Within relation (update change) := allowed

theorem call {request : World → α × World} (allowed : AllowsCall relation request) : Within relation (call request) :=
  allowed

theorem bind [IsTrans (Shell World) relation] {first : Leaf World α} {next : α → Leaf World β}
    (within : Within relation first) (nextWithin : ∀ value, Within relation (next value)) :
    Within relation (first >>= next) := Prog.Respects.bind within nextWithin

theorem ite {condition : Prop} [Decidable condition] {yes no : Leaf World α} (yesWithin : Within relation yes)
    (noWithin : Within relation no) : Within relation (if condition then yes else no) :=
  Prog.Respects.ite yesWithin noWithin

theorem done {prog : Leaf World α} {before after : Shell World} {value : α} (within : Within relation prog)
    (ended : Leaf.run prog before = .done value after) : relation before after := by
  have reached := within before
  unfold Leaf.run at ended
  rw [ended] at reached
  exact reached

end Within

/-! ## Jobs -/

/-- The relation allows what the functions for jobs change. -/
structure AllowsJobs [System World] (relation : Shell World → Shell World → Prop) : Prop where
  jobs : ∀ (state : Shell World) processes jobs foregroundJob,
    relation state { state with processes, jobs, foregroundJob }
  serial : ∀ state : Shell World, relation state { state with nextSerial := state.nextSerial + 1 }
  printErr : ∀ text, AllowsCall relation (System.printErr text)
  setpgid : ∀ pid pgid, AllowsCall relation (System.setpgid pid pgid)
  tcsetpgrp : ∀ pgid, AllowsCall relation (System.tcsetpgrp pgid)
  tcgetattr : AllowsCall relation System.tcgetattr
  tcsetattr : ∀ modes, AllowsCall relation (System.tcsetattr modes)
  kill : ∀ pid sig, AllowsCall relation (System.kill pid sig)

section

variable [Std.Refl relation]

theorem findProcess_within [IsTrans (Shell World) relation] (serial : Nat) :
    Within relation (findProcess serial : Leaf World Process) := .bind (.gets _) fun _ => .orCrash _

theorem findJob_within [IsTrans (Shell World) relation] (serial : Nat) :
    Within relation (findJob serial : Leaf World Job) := .bind (.gets _) fun _ => .orCrash _

theorem jobProcesses_within [IsTrans (Shell World) relation] (job : Job) :
    Within relation (jobProcesses job : Leaf World (List Process)) := by
  unfold jobProcesses
  induction job.processes with
  | nil => exact .pure _
  | cons serial serials ih =>
      rw [List.mapM_cons]
      exact .bind (findProcess_within serial) fun _ => .bind ih fun _ => .pure _

theorem jobPoll_within [IsTrans (Shell World) relation] (serial : Nat) :
    Within relation (jobPoll serial : Leaf World Int) :=
  .bind (findJob_within serial) fun job => .bind (jobProcesses_within job) fun _ => .orCrash _

end

namespace AllowsJobs

variable [System World] [Std.Refl relation] [IsTrans (Shell World) relation] (allows : AllowsJobs relation)

include allows

theorem perror (text : Str) (errno : Errno) : Within relation (perror text errno : Leaf World Unit) :=
  .bind (.pure _) fun _ => .call (allows.printErr _)

theorem newSerial : Within relation (newSerial : Leaf World Nat) :=
  .bind (.gets _) fun _ => .bind (.update allows.serial) fun _ => .pure _

omit [Std.Refl relation] [IsTrans (Shell World) relation] in
theorem modifyJob (serial : Nat) (change : Job → Job) : Within relation (modifyJob serial change : Leaf World Unit) :=
  .update fun state => allows.jobs state _ _ _

omit [Std.Refl relation] [IsTrans (Shell World) relation] in
theorem setForegroundJob (serial : Option Nat) : Within relation (setForegroundJob serial : Leaf World Unit) :=
  .update fun state => allows.jobs state _ _ _

theorem processCreate (pid : Int) : Within relation (processCreate pid : Leaf World Nat) :=
  .bind allows.newSerial fun _ => .bind (.update fun state => allows.jobs state _ _ _) fun _ => .pure _

theorem jobCreate (node : JobNode) : Within relation (jobCreate node : Leaf World Nat) := by
  refine .bind (.gets _) fun _ => .bind (.assertThat _) fun _ => ?_
  refine .bind allows.newSerial fun _ => .bind (.orCrash _) fun _ => ?_
  exact .bind (.update fun state => allows.jobs state _ _ _) fun _ => .pure _

theorem jobQueueNotification (serial : Nat) : Within relation (jobQueueNotification serial : Leaf World Unit) :=
  .bind (jobPoll_within serial) fun _ => .bind (.gets _) fun _ => allows.modifyJob _ _

theorem jobAddProcess (serial proc : Nat) : Within relation (jobAddProcess serial proc : Leaf World Unit) := by
  refine .bind (findJob_within serial) fun job => .bind (findProcess_within proc) fun proc =>
    .bind (allows.modifyJob _ _) fun _ => .bind (.call (allows.setpgid _ _)) fun reply => ?_
  cases reply with
  | error errno => exact .ite (allows.modifyJob _ _) (allows.perror _ _)
  | ok _ => exact allows.modifyJob _ _

theorem jobToForeground (job : Job) (cont : Bool) : Within relation (jobToForeground job cont : Leaf World Unit) := by
  refine .bind (.gets _) fun _ => .ite (.pure _) (.bind (.assertThat _) fun _ =>
    .bind (.call (allows.tcsetpgrp _)) fun _ => ?_)
  exact .ite (.bind (.call (allows.tcsetattr _)) fun _ => allows.setForegroundJob _) (allows.setForegroundJob _)

theorem jobToBackground (job : Job) : Within relation (jobToBackground job : Leaf World Unit) := by
  refine .bind (.gets _) fun _ => .ite (.bind (.gets _) fun _ => .bind (.call (allows.tcsetpgrp _)) fun _ =>
    .bind (.call allows.tcgetattr) ?_) (.pure _)
  have settled : ∀ _ : Unit, Within relation (do
      let termModes ← Mrsh.gets (·.termModes)
      let _ ← Mrsh.call (System.tcsetattr termModes)
      Mrsh.setForegroundJob none : Leaf World Unit) := fun _ =>
    .bind (.gets _) fun _ => .bind (.call (allows.tcsetattr _)) fun _ => allows.setForegroundJob _
  intro modes
  cases modes with
  | ok termModes => exact .bind (allows.modifyJob _ _) settled
  | error errno => exact settled ()

theorem jobSetForeground (serial : Nat) (foreground cont : Bool) :
    Within relation (jobSetForeground serial foreground cont : Leaf World Bool) := by
  refine .bind (findJob_within serial) fun job => .bind (.assertThat _) fun _ => .bind (.gets _) fun _ =>
    .ite (.bind (jobPoll_within serial) fun status => ?_) (.pure _)
  have queued : Within relation (do
      Mrsh.jobQueueNotification serial
      pure true : Leaf World Bool) := .bind (allows.jobQueueNotification serial) fun _ => .pure _
  refine .ite (.bind (allows.jobToForeground _ _) fun _ => ?_) (.bind (allows.jobToBackground _) fun _ => ?_)
  all_goals
    refine .ite (.bind (.call (allows.kill _ _)) fun reply => ?_) queued
    cases reply with
    | error errno => exact .bind (allows.perror _ _) fun _ => .pure _
    | ok _ => exact .bind (.update fun state => allows.jobs state _ _ _) fun _ => queued

theorem destroyProcesses (serials : List Nat) : Within relation (destroyProcesses serials : Leaf World Unit) := by
  induction serials with
  | nil => exact .pure _
  | cons serial serials ih =>
      refine .bind (.bind (findProcess_within serial) fun _ => ?_) fun _ => ih
      exact .update fun state => allows.jobs state _ _ _

theorem jobDestroy (serial : Nat) : Within relation (jobDestroy serial : Leaf World Unit) := by
  refine .bind (findJob_within serial) fun job => .bind (.gets _) fun foreground => ?_
  have dropped : ∀ _ : Unit, Within relation (do
      Mrsh.update fun core => { core with jobs := core.jobs.filter (·.serial != serial) }
      Mrsh.destroyProcesses job.processes : Leaf World Unit) :=
    fun _ => .bind (.update fun state => allows.jobs state _ _ _) fun _ => allows.destroyProcesses _
  exact .ite (.bind (allows.jobSetForeground _ _ _) fun _ => dropped ()) (dropped ())

theorem initChild (ctx : Context) (pid : Int) (async : Bool) :
    Within relation (initChild ctx pid async : Leaf World Nat) := by
  refine .bind (allows.processCreate pid) fun proc => .bind (.gets _) fun monitor => .ite ?_ (.pure _)
  refine .bind (.orCrash _) fun job => .bind (allows.jobAddProcess _ _) fun _ => .bind (.gets _) fun _ => ?_
  exact .ite (.bind (allows.jobSetForeground _ _ _) fun _ => .pure _) (.pure _)

end AllowsJobs

/-! ## Job control -/

/-- The relation also allows what the functions for job control change. -/
structure AllowsJobControl [System World] (relation : Shell World → Shell World → Prop) : Prop
    extends AllowsJobs relation where
  traps : ∀ (state : Shell World) traps freedPrograms, relation state { state with traps, freedPrograms }
  control : ∀ (state : Shell World) jobControl pgid termModes, relation state { state with jobControl, pgid, termModes }
  sigaction : ∀ sig handler, AllowsCall relation (System.sigaction sig handler)
  getpid : AllowsCall relation System.getpid
  getpgrp : AllowsCall relation System.getpgrp
  getsid : AllowsCall relation System.getsid
  tcgetpgrp : AllowsCall relation System.tcgetpgrp

namespace AllowsJobControl

variable [System World] [Std.Refl relation] [IsTrans (Shell World) relation] (allows : AllowsJobControl relation)

include allows

theorem replaceTrap (index : Nat) (trap : Trap) : Within relation (replaceTrap index trap : Leaf World Unit) := by
  refine .bind (.gets _) fun old => .bind ?_ fun _ => .update fun state => allows.traps state _ _
  cases old.program with
  | none => exact .pure _
  | some program =>
      exact .bind (.gets _) fun _ => .bind (.update fun state => allows.traps state _ _) fun _ => .assertThat _

theorem setJobControlTrapsLoop (enabled : Bool) (sigs : List (Nat × Nat)) :
    Within relation (setJobControlTrapsLoop enabled sigs : Leaf World Bool) := by
  induction sigs with
  | nil => exact .pure _
  | cons entry sigs ih =>
      refine .bind (.call (allows.sigaction _ _)) fun reply => ?_
      cases reply with
      | error errno => exact .bind (allows.perror _ _) fun _ => .pure _
      | ok _ => exact .bind (allows.replaceTrap _ _) fun _ => ih

theorem waitForForeground (fuel : Nat) : Within relation (waitForForeground fuel : Leaf World Unit) := by
  induction fuel with
  | zero => exact .stop _
  | succ fuel ih =>
      refine .bind (.call allows.getpgrp) fun _ => .bind (.call allows.tcgetpgrp) fun _ => ?_
      exact .ite (.pure _) (.bind (.call (allows.kill _ _)) fun _ => ih)

theorem perrorFalse (text : Str) (errno : Errno) : Within relation (perrorFalse text errno : Leaf World Bool) :=
  .bind (allows.perror text errno) fun _ => .pure _

theorem grabTerminal (pgid : Int) : Within relation (grabTerminal pgid : Leaf World Bool) := by
  refine .bind (.call (allows.tcsetpgrp _)) fun taken => ?_
  cases taken with
  | error errno => exact allows.perrorFalse _ _
  | ok _ =>
      refine .bind (.call allows.tcgetattr) fun modes => ?_
      cases modes with
      | error errno => exact allows.perrorFalse _ _
      | ok termModes => exact .bind (.update fun state => allows.control state _ _ _) fun _ => .pure _

theorem enableJobControl (fuel : Nat) : Within relation (enableJobControl fuel : Leaf World Bool) := by
  refine .bind (allows.waitForForeground fuel) fun _ => .bind (allows.setJobControlTrapsLoop _ _) fun _ =>
    .bind (.call allows.getpid) fun pgid => .bind (.update fun state => allows.control state _ _ _) fun _ =>
      .bind (.call allows.getsid) fun session => .ite ?_ (allows.grabTerminal _)
  refine .bind (.call (allows.setpgid _ _)) fun grouped => ?_
  cases grouped with
  | error errno => exact allows.perrorFalse _ _
  | ok _ => exact allows.grabTerminal _

theorem mrshSetJobControl (fuel : Nat) (enabled : Bool) :
    Within relation (mrshSetJobControl fuel enabled : Leaf World Bool) := by
  refine .bind (.gets _) fun _ => .ite (.pure _) (.ite (allows.enableJobControl fuel) ?_)
  exact .bind (allows.setJobControlTrapsLoop _ _) fun _ =>
    .bind (.update fun state => allows.control state _ _ _) fun _ => .pure _

theorem leaveJobControl (fuel : Nat) : Within relation (leaveJobControl fuel : Leaf World Unit) :=
  .bind (.gets _) fun _ => .ite (.bind (allows.mrshSetJobControl fuel false) fun _ => .pure _) (.pure _)

end AllowsJobControl

end

end Mrsh
