import Mrsh.Shell.JobFootprint
import Mrsh.Shell.Task.Task

namespace Mrsh

open Mrsh.Data

/-! # What stays of the jobs and the processes

Polling, waiting and moving a job between foreground and background change the status of the entries. Which entries
there are, what identifies them and which processes a job has stays.
-/

/-- A job without what the job functions change of it. -/
def Job.entry (job : Job) : Job := { job with termModes := 0, pendingNotification := false, lastStatus := 0 }

def Process.entry (proc : Process) : Process :=
  { proc with stopped := false, terminated := false, stat := 0, signal := 0 }

section

variable {World α : Type}

structure SameEntries (before after : Shell World) : Prop where
  jobs : after.jobs.map Job.entry = before.jobs.map Job.entry
  processes : after.processes.map Process.entry = before.processes.map Process.entry
  serials : after.nextSerial = before.nextSerial
  options : after.options = before.options

instance : Std.Refl (SameEntries : Shell World → Shell World → Prop) := ⟨fun _ => ⟨rfl, rfl, rfl, rfl⟩⟩

instance : IsTrans (Shell World) SameEntries := ⟨fun _ _ _ first second =>
  ⟨second.jobs.trans first.jobs, second.processes.trans first.processes, second.serials.trans first.serials,
    second.options.trans first.options⟩⟩

namespace SameEntries

variable {before after : Shell World}

theorem jobs_map {β : Type} (same : SameEntries before after) (read : Job → β)
    (reads : ∀ job, read job.entry = read job) :
    after.jobs.map read = before.jobs.map read := by
  have mapped := congrArg (List.map read) same.jobs
  rw [List.map_map, List.map_map] at mapped
  have reading : read ∘ Job.entry = read := funext reads
  rwa [reading] at mapped

theorem processes_map {β : Type} (same : SameEntries before after) (read : Process → β)
    (reads : ∀ proc, read proc.entry = read proc) : after.processes.map read = before.processes.map read := by
  have mapped := congrArg (List.map read) same.processes
  rw [List.map_map, List.map_map] at mapped
  have reading : read ∘ Process.entry = read := funext reads
  rwa [reading] at mapped

end SameEntries

theorem jobsWithStatus_within {relation : Shell World → Shell World → Prop} [Std.Refl relation]
    [IsTrans (Shell World) relation] (status : Int) (serials : List Nat) :
    Within relation (jobsWithStatus status serials : Leaf World (List Nat)) := by
  induction serials with
  | nil => exact .pure _
  | cons serial serials ih => exact .bind (jobPoll_within serial) fun _ => .bind ih fun _ => .pure _

abbrev KeepsEntries (prog : Leaf World α) : Prop := Within SameEntries prog

namespace KeepsEntries

theorem call (request : World → α × World) : KeepsEntries (call request) :=
  Within.call fun _ => ⟨rfl, rfl, rfl, rfl⟩

theorem modifyJob (serial : Nat) {change : Job → Job} (keeps : ∀ job, (change job).entry = job.entry) :
    KeepsEntries (modifyJob serial change : Leaf World Unit) := by
  refine .update fun state => ⟨?_, rfl, rfl, rfl⟩
  rw [List.map_map]
  refine List.map_congr_left fun job _ => ?_
  simp only [Function.comp_apply]
  split
  · exact keeps job
  · rfl

theorem mapProcesses {change : Shell World → Process → Process}
    (keeps : ∀ state proc, (change state proc).entry = proc.entry) :
    ∀ state : Shell World, SameEntries state { state with processes := state.processes.map (change state) } := by
  refine fun state => ⟨rfl, ?_, rfl, rfl⟩
  rw [List.map_map]
  exact List.map_congr_left fun proc _ => keeps state proc

theorem modifyProcess (serial : Nat) {change : Process → Process} (keeps : ∀ proc, (change proc).entry = proc.entry) :
    KeepsEntries (modifyProcess serial change : Leaf World Unit) := by
  refine .update (mapProcesses fun _ proc => ?_)
  split
  · exact keeps proc
  · rfl

theorem setForegroundJob (serial : Option Nat) : KeepsEntries (setForegroundJob serial : Leaf World Unit) :=
  .update fun _ => ⟨rfl, rfl, rfl, rfl⟩

theorem jobQueueNotification (serial : Nat) : KeepsEntries (jobQueueNotification serial : Leaf World Unit) :=
  .bind (jobPoll_within serial) fun _ => .bind (.gets _) fun _ => modifyJob serial fun _ => rfl

theorem jobGetRunningProcess (job : Job) : KeepsEntries (jobGetRunningProcess job : Leaf World (Option Process)) :=
  .bind (jobProcesses_within job) fun _ => .pure _

theorem updateProcess (pid : Int) (stat : Nat) : KeepsEntries (updateProcess pid stat : Leaf World Unit) := by
  refine .bind (.gets _) fun processes => ?_
  cases processes.find? (·.pid == pid) with
  | none => exact .pure _
  | some proc =>
      exact .ite (modifyProcess proc.serial fun _ => rfl) (.ite (modifyProcess proc.serial fun _ => rfl) (.stop _))

variable [System World]

theorem perror (text : Str) (errno : Errno) : KeepsEntries (perror text errno : Leaf World Unit) :=
  .bind (.pure _) fun _ => call _

theorem jobToForeground (job : Job) (cont : Bool) : KeepsEntries (jobToForeground job cont : Leaf World Unit) := by
  refine .bind (.gets _) fun _ => .ite (.pure _) (.bind (.assertThat _) fun _ => .bind (call _) fun _ => ?_)
  exact .ite (.bind (call _) fun _ => setForegroundJob _) (setForegroundJob _)

theorem jobToBackground (job : Job) : KeepsEntries (jobToBackground job : Leaf World Unit) := by
  have leaves : ∀ _ : Unit, KeepsEntries (do
      let termModes ← gets (·.termModes)
      let _ ← Mrsh.call (System.tcsetattr termModes)
      Mrsh.setForegroundJob none : Leaf World Unit) :=
    fun _ => .bind (.gets _) fun _ => .bind (call _) fun _ => setForegroundJob _
  refine .bind (.gets _) fun _ => .ite (.bind (.gets _) fun _ => .bind (call _) fun _ => .bind (call _) fun reply => ?_)
    (.pure _)
  cases reply with
  | error errno => exact leaves ()
  | ok termModes => exact .bind (modifyJob job.serial fun _ => rfl) leaves

theorem jobSetForeground (serial : Nat) (foreground cont : Bool) :
    KeepsEntries (jobSetForeground serial foreground cont : Leaf World Bool) := by
  have queues : KeepsEntries (do
      Mrsh.jobQueueNotification serial
      pure true : Leaf World Bool) := .bind (jobQueueNotification serial) fun _ => .pure _
  refine .bind (findJob_within serial) fun job => .bind (.assertThat _) fun _ => .bind (.gets _) fun _ =>
    .ite (.bind (jobPoll_within serial) fun status => ?_) (.pure _)
  refine .ite (.bind (jobToForeground job _) fun _ => ?_) (.bind (jobToBackground job) fun _ => ?_)
  all_goals
    refine .ite (.bind (call _) fun reply => ?_) queues
    cases reply with
    | error errno => exact .bind (perror _ _) fun _ => .pure _
    | ok _ =>
        refine .bind (.update (mapProcesses fun _ proc => ?_)) fun _ => queues
        split <;> rfl

theorem updateJobs (serials : List Nat) : KeepsEntries (updateJobs serials : Leaf World Unit) := by
  induction serials with
  | nil => exact .pure _
  | cons serial serials ih =>
      have looks : ∀ status : Int, KeepsEntries (do
          let job ← findJob serial
          if status != taskStatusWait && 0 < job.pgid then do
            let _ ← Mrsh.jobSetForeground serial false false
            Mrsh.updateJobs serials
          else Mrsh.updateJobs serials : Leaf World Unit) := fun status =>
        .bind (findJob_within serial) fun _ => .ite (.bind (jobSetForeground serial false false) fun _ => ih) ih
      exact .bind (jobPoll_within serial) fun status =>
        .ite (.bind (jobQueueNotification serial) fun _ => looks status) (looks status)

theorem updateJob (pid : Int) (stat : Nat) : KeepsEntries (updateJob pid stat : Leaf World Unit) :=
  .bind (updateProcess pid stat) fun _ => .bind (.gets _) fun _ => .ite (.bind (.gets _) fun _ =>
    updateJobs _) (.pure _)

theorem waitpidLoop (pid : Int) (nohang untraced : Bool) (fuel : Nat) :
    KeepsEntries (waitpidLoop pid nohang untraced fuel : Leaf World Bool) := by
  induction fuel with
  | zero => exact .stop _
  | succ fuel ih =>
      have fails : ∀ errno, KeepsEntries (do
          let msg ← strerror errno
          eprintf ("waitpid(".toList ++ decimal pid ++ "): ".toList ++ msg ++ ['\n'])
          pure false : Leaf World Bool) := fun errno => .bind (.pure _) fun _ => .bind (call _) fun _ => .pure _
      refine .bind (call _) fun reply => ?_
      cases reply with
      | error errno =>
          cases errno with
          | eintr => exact ih
          | _ => exact fails _
      | ok reported =>
          exact .ite (.bind (.assertThat _) fun _ => .pure _)
            (.bind (.assertThat _) fun _ => .bind (updateJob _ _) fun _ => .pure _)

theorem jobWaitPid (fuel : Nat) (pid : Int) (nohang : Bool) :
    KeepsEntries (jobWaitPid fuel pid nohang : Leaf World Bool) :=
  .bind (call _) fun _ => .bind (.assertThat _) fun _ => .bind (.gets _) fun _ => waitpidLoop pid nohang _ fuel

theorem refreshJobsStatus (fuel : Nat) : KeepsEntries (refreshJobsStatus fuel : Leaf World Bool) := by
  have refreshes : ∀ serials, KeepsEntries (refreshJobs fuel serials : Leaf World Bool) := by
    intro serials
    induction serials with
    | nil => exact .pure _
    | cons serial serials ih =>
        refine .bind (findJob_within serial) fun job => .bind (jobGetRunningProcess job) fun found => ?_
        cases found with
        | none => exact ih
        | some proc => exact .bind (jobWaitPid fuel proc.pid true) fun _ => .ite ih (.pure _)
  exact .bind (.gets _) fun _ => refreshes _

/-! ## Finding and showing jobs -/

omit [System World] in
theorem jobStateStr (serial : Nat) (r : Bool) : KeepsEntries (jobStateStr serial r : Leaf World Str) := by
  refine .bind (jobPoll_within serial) fun status => .bind (findJob_within serial) fun job =>
    .bind (jobProcesses_within job) fun procs => .ite (.pure _) (.ite (.pure _) (.ite (.pure _) ?_))
  cases procs.head? with
  | none => exact .pure _
  | some proc => exact .ite (.pure _) (.pure _)

theorem showJob (serial : Nat) (current previous : Option Nat) (r : Bool) :
    KeepsEntries (showJob serial current previous r : Leaf World Unit) :=
  .bind (findJob_within serial) fun _ => .bind (.orCrash _) fun _ => .bind (jobStateStr serial r) fun _ => call _

theorem showPending (job : Job) (current previous : Option Nat) (r : Bool) :
    KeepsEntries (showPending job current previous r : Leaf World Unit) :=
  .bind (.gets _) fun _ =>
    .ite (.bind (showJob job.serial current previous r) fun _ => modifyJob job.serial fun _ => rfl) (.pure _)

end KeepsEntries

variable [System World]

/-- Without messages nothing changes when a job is looked up by its status. -/
theorem recentJob_within {relation : Shell World → Shell World → Prop} [Std.Refl relation]
    [IsTrans (Shell World) relation] (index : Nat) (msg : Str) :
    Within relation (recentJob false index msg : Leaf World (Option Nat)) := by
  refine .bind (.gets _) fun jobs => .bind (jobsWithStatus_within _ _) fun stopped => ?_
  cases stopped[index]? with
  | some serial => exact .pure _
  | none =>
      refine .bind (jobsWithStatus_within _ _) fun running => ?_
      cases running[index]? with
      | some serial => exact .pure _
      | none => exact .pure _

end

end Mrsh
