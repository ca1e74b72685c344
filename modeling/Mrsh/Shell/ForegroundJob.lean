import Mrsh.Data.Conditions
import Mrsh.Data.Traces
import Mrsh.Shell.ChildStatus
import Mrsh.Shell.JobFootprint

namespace Mrsh

open Mrsh.Data

/-! # The job in the foreground

Pipelines and `fg` put a job in the foreground, and only the look at all jobs after a wait
puts it back. The functions of `shell/job.c` are followed here in every order in which the
shell calls them, and in every order of the events that `waitpid` reports.
-/

section

variable {World α β : Type}

/-! ## What the functions do to the foreground job -/

/-- The job exists and has a process group. -/
def Registered (state : Shell World) (serial : Nat) : Prop :=
  ∃ job, state.jobs.find? (·.serial == serial) = some job ∧ 0 < job.pgid

/-- Jobs stay registered, and the foreground job stays unless it is sent to the background
or the target comes to the foreground. -/
structure Tracks (target : Option Nat) (before after : Shell World) : Prop where
  control : after.jobControl = before.jobControl
  registered : ∀ serial, Registered before serial → Registered after serial
  foreground : after.foregroundJob = before.foregroundJob ∨ after.foregroundJob = none ∨ after.foregroundJob = target

/-- What decides the status of the jobs stays, and the foreground job may only leave. -/
structure Lowers (before after : Shell World) : Prop where
  control : after.jobControl = before.jobControl
  processes : after.processes = before.processes
  jobs : after.jobs.map (fun job => (job.serial, job.pgid, job.processes)) =
    before.jobs.map fun job => (job.serial, job.pgid, job.processes)
  foreground : after.foregroundJob = before.foregroundJob ∨ after.foregroundJob = none

theorem Tracks.of_same {target : Option Nat} {before after : Shell World}
    (control : after.jobControl = before.jobControl)
    (jobs : after.jobs = before.jobs) (foreground : after.foregroundJob = before.foregroundJob) :
    Tracks target before after :=
      ⟨control, fun serial => by rw [Registered, Registered, jobs]; exact id, .inl foreground⟩

theorem Tracks.trans {target : Option Nat} {first second third : Shell World} (before : Tracks target first second)
    (after : Tracks target second third) : Tracks target first third where
  control := after.control.trans before.control
  registered serial held := after.registered serial (before.registered serial held)
  foreground := by
    rcases after.foreground with same | cleared | set
    · rw [same]
      exact before.foreground
    · exact .inr (.inl cleared)
    · exact .inr (.inr set)

theorem Lowers.trans {first second third : Shell World} (before : Lowers first second) (after : Lowers second third) :
    Lowers first third where
  control := after.control.trans before.control
  processes := after.processes.trans before.processes
  jobs := after.jobs.trans before.jobs
  foreground := by
    rcases after.foreground with same | cleared
    · rw [same]
      exact before.foreground
    · exact .inr cleared

instance (target : Option Nat) : Std.Refl (Tracks target : Shell World → Shell World → Prop) :=
  ⟨fun _ => .of_same rfl rfl rfl⟩

instance (target : Option Nat) : IsTrans (Shell World) (Tracks target) := ⟨fun _ _ _ => Tracks.trans⟩

instance : Std.Refl (Lowers : Shell World → Shell World → Prop) := ⟨fun _ => ⟨rfl, rfl, rfl, .inl rfl⟩⟩

instance : IsTrans (Shell World) Lowers := ⟨fun _ _ _ => Lowers.trans⟩

/-- The job of the serial, in a table with as many entries of the same kind. -/
theorem find_of_shape {before after : List Job} {serial : Nat}
    (jobs : after.map (fun job => (job.serial, job.pgid, job.processes)) =
      before.map fun job => (job.serial, job.pgid, job.processes)) :
    (after.find? (·.serial == serial)).map (fun job => (job.serial, job.pgid, job.processes)) =
      (before.find? (·.serial == serial)).map fun job => (job.serial, job.pgid, job.processes) := by
  have same := congrArg (List.find? fun shape : Nat × Int × List Nat => shape.1 == serial) jobs
  rw [List.find?_map, List.find?_map] at same
  exact same

theorem Lowers.tracks {before after : Shell World} (lowers : Lowers before after) (target : Option Nat) :
    Tracks target before after where
  control := lowers.control
  registered serial held := by
    obtain ⟨job, found, started⟩ := held
    have same := @find_of_shape _ _ serial lowers.jobs
    rw [found, Option.map_some] at same
    obtain ⟨other, foundOther, shape⟩ := Option.map_eq_some_iff.mp same
    refine ⟨other, foundOther, ?_⟩
    rw [(Prod.mk.inj (Prod.mk.inj shape).2).1]
    exact started
  foreground := lowers.foreground.imp_right .inl

abbrev TracksForeground (target : Option Nat) (prog : Leaf World α) : Prop := Within (Tracks target) prog

abbrev OnlyLowers (prog : Leaf World α) : Prop := Within Lowers prog

theorem OnlyLowers.tracks {prog : Leaf World α} (lowers : OnlyLowers prog) (target : Option Nat) :
    TracksForeground target prog := fun state => (lowers state).tracks target

/-- What leaves the jobs, the processes and job control alone. -/
def Core.jobTable (core : Core World) : List Job × List Process × Option Nat × Bool :=
  (core.jobs, core.processes, core.foregroundJob, core.jobControl)

theorem Lowers.of_table {before after : Shell World} (same : after.jobTable = before.jobTable) :
    Lowers before after where
  control := congrArg (·.2.2.2) same
  processes := congrArg (·.2.1) same
  jobs := congrArg (List.map _) (congrArg Prod.fst same)
  foreground := .inl (congrArg (·.2.2.1) same)

theorem call_lowers (request : World → α × World) : OnlyLowers (call request) := fun _ => .of_table rfl

theorem modifyJob_lowers (serial : Nat) {change : Job → Job}
    (keeps : ∀ job,
      ((change job).serial, (change job).pgid, (change job).processes) = (job.serial, job.pgid, job.processes)) :
    OnlyLowers (modifyJob serial change : Leaf World Unit) := by
  refine fun state => ⟨rfl, rfl, ?_, .inl rfl⟩
  change (state.jobs.map fun job => if job.serial = serial then change job else job).map _ = _
  rw [List.map_map]
  apply List.map_congr_left
  intro job _
  by_cases chosen : job.serial = serial
  · simp only [Function.comp_apply, if_pos chosen, keeps]
  · simp only [Function.comp_apply, if_neg chosen]

theorem jobQueueNotification_lowers (serial : Nat) : OnlyLowers (jobQueueNotification serial : Leaf World Unit) :=
  .bind (jobPoll_within serial) fun _ => .bind (.gets _) fun _ => modifyJob_lowers serial fun _ => rfl

theorem find_modified {jobs : List Job} {serial other : Nat} {change : Job → Job}
    (keeps : ∀ job, (change job).serial = job.serial) :
    (jobs.map fun job => if job.serial = serial then change job else job).find? (·.serial == other) =
      (jobs.find? (·.serial == other)).map fun job => if job.serial = serial then change job else job := by
  have sameSerial :
    ((fun job : Job => job.serial == other) ∘ fun job => if job.serial = serial then change job else job) =
      fun job => job.serial == other := by
    funext job
    by_cases chosen : job.serial = serial
    · simp only [Function.comp_apply, if_pos chosen, keeps]
    · simp only [Function.comp_apply, if_neg chosen]
  rw [List.find?_map, sameSerial]

theorem modifyJob_tracks (target : Option Nat) (serial : Nat) {change : Job → Job}
    (keeps : ∀ job, (change job).serial = job.serial ∧ (0 < job.pgid → 0 < (change job).pgid)) :
    TracksForeground target (modifyJob serial change : Leaf World Unit) := by
  refine fun state => ⟨rfl, ?_, .inl rfl⟩
  rintro other ⟨job, found, started⟩
  refine ⟨if job.serial = serial then change job else job, ?_, ?_⟩
  · exact (find_modified fun job => (keeps job).1).trans (by rw [found, Option.map_some])
  · by_cases chosen : job.serial = serial
    · rw [if_pos chosen]
      exact (keeps job).2 started
    · rw [if_neg chosen]
      exact started

theorem update_tracks (target : Option Nat) {change : Core World → Core World}
    (control : ∀ core, (change core).jobControl = core.jobControl) (jobs : ∀ core, (change core).jobs = core.jobs)
    (foreground : ∀ core, (change core).foregroundJob = core.foregroundJob ∨ (change core).foregroundJob = none ∨
      (change core).foregroundJob = target) : TracksForeground target (update change) := by
  refine fun state => ⟨control _, fun serial => ?_, foreground _⟩
  have same : (Leaf.run (update change) state).state.jobs = state.jobs := jobs _
  exact fun held => by
    rw [Registered]
    change ∃ job, (Leaf.run (update change) state).state.jobs.find? _ = _ ∧ _
    rw [same]
    exact held

/-! ## The functions -/

variable [System World] {target : Option Nat}

theorem perror_lowers (text : Str) (errno : Errno) : OnlyLowers (perror text errno : Leaf World Unit) :=
  .bind (.pure _) fun _ => call_lowers _

theorem jobToBackground_lowers (job : Job) : OnlyLowers (jobToBackground job : Leaf World Unit) := by
  have leaves : OnlyLowers (do
      let termModes ← gets (·.termModes)
      let _ ← call (System.tcsetattr termModes)
      setForegroundJob none : Leaf World Unit) :=
    .bind (.gets _) fun _ => .bind (call_lowers _) fun _ => fun _ => ⟨rfl, rfl, rfl, .inr rfl⟩
  refine .bind (.gets _) fun _ => .ite (.bind (.gets _) fun _ => .bind (call_lowers _) fun _ =>
    .bind (call_lowers _) fun reply => ?_) (.pure _)
  cases reply with
  | error errno => exact leaves
  | ok termModes => exact .bind (modifyJob_lowers job.serial fun _ => rfl) fun _ => leaves

theorem jobToForeground_tracks (job : Job) (cont : Bool) :
    TracksForeground (some job.serial) (jobToForeground job cont : Leaf World Unit) := by
  have sets : TracksForeground (some job.serial) (setForegroundJob (some job.serial) : Leaf World Unit) :=
    update_tracks _ (fun _ => rfl) (fun _ => rfl) fun _ => .inr (.inr rfl)
  refine .bind (.gets _) fun _ => .ite (.pure _) (.bind (.assertThat _) fun _ =>
    .bind ((call_lowers _).tracks _) fun _ => .ite (.bind ((call_lowers _).tracks _) fun _ => sets) sets)

theorem continueJob_tracks (serial : Nat) (job : Job) (cont : Bool) : TracksForeground target (do
    if cont then
      match ← call (System.kill (-job.pgid) sigcont) with
      | .error errno => do
          perror "kill".toList errno
          pure false
      | .ok _ => do
          update fun core =>
            { core with
              processes := core.processes.map fun proc =>
                if proc.serial ∈ job.processes then { proc with stopped := false } else proc }
          jobQueueNotification serial
          pure true
    else do
      jobQueueNotification serial
      pure true : Leaf World Bool) := by
  have notifies : TracksForeground target (do
      jobQueueNotification serial
      pure true : Leaf World Bool) :=
    OnlyLowers.tracks (.bind (jobQueueNotification_lowers serial) fun _ => .pure _) _
  refine .ite (.bind ((call_lowers _).tracks _) fun reply => ?_) notifies
  cases reply with
  | error errno => exact OnlyLowers.tracks (.bind (perror_lowers _ _) fun _ => .pure _) _
  | ok _ => exact .bind (update_tracks _ (fun _ => rfl) (fun _ => rfl) fun _ => .inl rfl) fun _ => notifies

theorem jobSetForeground_background_lowers (serial : Nat) :
    OnlyLowers (jobSetForeground serial false false : Leaf World Bool) := by
  refine .bind (findJob_within serial) fun job => .bind (.assertThat _) fun _ => .bind (.gets _) fun _ =>
    .ite (.bind (jobPoll_within serial) fun status => ?_) (.pure _)
  simp only [Bool.false_and, Bool.false_eq_true, if_false]
  exact .bind (jobToBackground_lowers job) fun _ => .bind (jobQueueNotification_lowers serial) fun _ => .pure _

omit [System World] in
theorem findJob_tracks {serial : Nat} {next : Job → Leaf World α}
    (tracks : ∀ job, job.serial = serial → TracksForeground target (next job)) :
    TracksForeground target (findJob serial >>= next) := by
  intro state
  change Tracks target state (Leaf.run (findJob serial >>= next) state).state
  rw [Leaf.run_bind]
  cases found : state.jobs.find? (·.serial == serial) with
  | none =>
      have crashes : Leaf.run (findJob serial) state = .stopped .aborted state := by simp [findJob, found, orCrash]
      rw [crashes]
      exact Std.Refl.refl state
  | some job =>
      have finds : Leaf.run (findJob serial) state = .done job state := by simp [findJob, found]
      rw [finds]
      exact tracks job (by simpa using List.find?_some found) state

theorem jobSetForeground_tracks (serial : Nat) (foreground cont : Bool)
    (allowed : foreground = true → target = some serial) :
    TracksForeground target (jobSetForeground serial foreground cont : Leaf World Bool) := by
  refine findJob_tracks fun job same => .bind (.assertThat _) fun _ =>
    .bind (.gets _) fun _ => .ite (.bind (jobPoll_within serial) fun status => ?_) (.pure _)
  cases foreground with
  | true =>
      have enters := @jobToForeground_tracks World _ job (cont && status == taskStatusStopped)
      rw [same, ← allowed rfl] at enters
      exact .bind enters fun _ => continueJob_tracks serial job _
  | false => exact .bind ((jobToBackground_lowers job).tracks _) fun _ => continueJob_tracks serial job _

theorem updateJobs_lowers (serials : List Nat) : OnlyLowers (updateJobs serials : Leaf World Unit) := by
  induction serials with
  | nil => exact .pure _
  | cons serial serials ih =>
      have looks : ∀ status : Int, OnlyLowers (do
          let job ← findJob serial
          if status != taskStatusWait && 0 < job.pgid then do
            let _ ← jobSetForeground serial false false
            updateJobs serials
          else updateJobs serials : Leaf World Unit) := fun status =>
        .bind (findJob_within serial) fun _ => .ite (.bind (jobSetForeground_background_lowers serial) fun _ => ih) ih
      exact .bind (jobPoll_within serial) fun status =>
        .ite (.bind (jobQueueNotification_lowers serial) fun _ => looks status) (looks status)

omit [System World] in
theorem modifyProcess_tracks (serial : Nat) (change : Process → Process) :
    TracksForeground target (modifyProcess serial change : Leaf World Unit) :=
  update_tracks _ (fun _ => rfl) (fun _ => rfl) fun _ => .inl rfl

omit [System World] in
theorem updateProcess_tracks (pid : Int) (stat : Nat) :
    TracksForeground target (updateProcess pid stat : Leaf World Unit) := by
  refine .bind (.gets _) fun processes => ?_
  cases processes.find? (·.pid == pid) with
  | none => exact .pure _
  | some proc => exact .ite (modifyProcess_tracks _ _) (.ite (modifyProcess_tracks _ _) (.stop _))

theorem updateJob_tracks (pid : Int) (stat : Nat) : TracksForeground target (updateJob pid stat : Leaf World Unit) :=
  .bind (updateProcess_tracks pid stat) fun _ => .bind (.gets _) fun _ =>
    .ite (.bind (.gets _) fun _ => (updateJobs_lowers _).tracks _) (.pure _)

theorem waitpidLoop_tracks (pid : Int) (nohang untraced : Bool) (fuel : Nat) :
    TracksForeground target (waitpidLoop pid nohang untraced fuel : Leaf World Bool) := by
  induction fuel with
  | zero => exact .stop _
  | succ fuel ih =>
      refine .bind ((call_lowers _).tracks _) fun reply => ?_
      have fails : ∀ errno, TracksForeground target (do
          let msg ← strerror errno
          eprintf ("waitpid(".toList ++ decimal pid ++ "): ".toList ++ msg ++ ['\n'])
          pure false : Leaf World Bool) := fun errno =>
        OnlyLowers.tracks (.bind (.pure _) fun _ => .bind (call_lowers _) fun _ => .pure _) _
      cases reply with
      | error errno =>
          cases errno with
          | eintr => exact ih
          | _ => exact fails _
      | ok reported =>
          obtain ⟨ret, stat⟩ := reported
          exact .ite (.bind (.assertThat _) fun _ => .pure _)
            (.bind (.assertThat _) fun _ => .bind (updateJob_tracks ret stat) fun _ => .pure _)

theorem jobWaitPid_tracks (fuel : Nat) (pid : Int) (nohang : Bool) :
    TracksForeground target (jobWaitPid fuel pid nohang : Leaf World Bool) :=
  .bind ((call_lowers _).tracks _) fun _ => .bind (.assertThat _) fun _ =>
    .bind (.gets _) fun _ => waitpidLoop_tracks pid nohang _ fuel

theorem refreshJobsStatus_tracks (fuel : Nat) : TracksForeground target (refreshJobsStatus fuel : Leaf World Bool) := by
  have refreshes : ∀ serials, TracksForeground target (refreshJobs fuel serials : Leaf World Bool) := by
    intro serials
    induction serials with
    | nil => exact .pure _
    | cons serial serials ih =>
        have running : ∀ job, OnlyLowers (jobGetRunningProcess job : Leaf World (Option Process)) := fun job =>
          .bind (jobProcesses_within job) fun _ => .pure _
        refine .bind (findJob_within serial) fun job => .bind ((running job).tracks _) fun found => ?_
        cases found with
        | none => exact ih
        | some proc => exact .bind (jobWaitPid_tracks fuel proc.pid true) fun _ => .ite ih (.pure _)
  exact .bind (.gets _) fun _ => refreshes _

omit [System World] in
theorem newSerial_tracks : TracksForeground target (newSerial : Leaf World Nat) :=
  .bind (.gets _) fun _ =>
    .bind (update_tracks _ (fun _ => rfl) (fun _ => rfl) fun _ => .inl rfl) fun _ => .pure _

omit [System World] in
theorem processCreate_tracks (pid : Int) : TracksForeground target (processCreate pid : Leaf World Nat) :=
  .bind newSerial_tracks fun _ => .bind (update_tracks _ (fun _ => rfl) (fun _ => rfl) fun _ => .inl rfl)
    fun _ => .pure _

omit [System World] in
theorem jobCreate_tracks (node : JobNode) : TracksForeground target (jobCreate node : Leaf World Nat) := by
  refine .bind (.gets _) fun _ => .bind (.assertThat _) fun _ => ?_
  refine .bind newSerial_tracks fun serial => .bind (.orCrash _) fun node => .bind ?_ fun _ => .pure _
  refine fun state => ⟨rfl, ?_, .inl rfl⟩
  rintro other ⟨job, found, started⟩
  refine ⟨job, ?_, started⟩
  change (state.jobs ++ _).find? _ = _
  rw [List.find?_append, found]
  rfl

omit [System World] in
theorem setPgid_tracks {state : Shell World} {serial : Nat} {job : Job} (pid : Int)
    (found : state.jobs.find? (·.serial == serial) = some job) :
    Tracks target state (Leaf.run (modifyJob serial fun other =>
      { other with pgid := if job.pgid ≤ 0 then pid else job.pgid }) state).state := by
  refine ⟨rfl, ?_, .inl rfl⟩
  rintro other ⟨registered, foundOther, started⟩
  let change (other : Job) : Job := { other with pgid := if job.pgid ≤ 0 then pid else job.pgid }
  have modified := @find_modified state.jobs serial other change fun _ => rfl
  refine ⟨_, modified.trans (by rw [foundOther, Option.map_some]), ?_⟩
  by_cases chosen : registered.serial = serial
  · have isOther : registered.serial = other := by simpa using List.find?_some foundOther
    have same : job = registered := by
      rw [← isOther, chosen, found] at foundOther
      exact Option.some.inj foundOther
    subst same
    rw [if_pos chosen]
    change 0 < if job.pgid ≤ 0 then pid else job.pgid
    rw [if_neg (Int.not_le.mpr started)]
    exact started
  · rw [if_neg chosen]
    exact started

theorem jobAddProcess_tracks (serial proc : Nat) :
    TracksForeground target (jobAddProcess serial proc : Leaf World Unit) := by
  have adds : ∀ process : Nat, TracksForeground target
      (modifyJob serial fun job => { job with processes := job.processes ++ [process] } : Leaf World Unit) :=
    fun process => modifyJob_tracks _ _ fun _ => ⟨rfl, id⟩
  intro state
  change Tracks target state (Leaf.run (jobAddProcess serial proc) state).state
  unfold jobAddProcess
  rw [Leaf.run_bind]
  cases found : state.jobs.find? (·.serial == serial) with
  | none =>
      have crashes : Leaf.run (findJob serial) state = .stopped .aborted state := by simp [findJob, found, orCrash]
      rw [crashes]
      exact Std.Refl.refl state
  | some job =>
      have finds : Leaf.run (findJob serial) state = .done job state := by simp [findJob, found]
      rw [finds, Outcome.andThen_done, Leaf.run_bind]
      cases process : state.processes.find? (·.serial == proc) with
      | none =>
          have crashes : Leaf.run (findProcess proc) state = .stopped .aborted state := by
            simp [findProcess, process, orCrash]
          rw [crashes]
          exact Std.Refl.refl state
      | some proc' =>
          have findsProcess : Leaf.run (findProcess proc) state = .done proc' state := by simp [findProcess, process]
          rw [findsProcess, Outcome.andThen_done, Leaf.run_bind]
          apply Tracks.trans (setPgid_tracks proc'.pid found)
          refine Prog.Respects.bind ((call_lowers _).tracks target) (fun reply => ?_) _
          cases reply with
          | error errno => exact .ite (adds proc'.serial) ((perror_lowers _ _).tracks _)
          | ok _ => exact adds proc'.serial

theorem initChild_tracks (ctx : Context) (pid : Int) (async : Bool)
    (allowed : async = false → ctx.background = false → target = ctx.job) :
    TracksForeground target (initChild ctx pid async : Leaf World Nat) := by
  refine .bind (processCreate_tracks pid) fun proc => .bind (.gets _) fun monitor => .ite ?_ (.pure _)
  cases job : ctx.job with
  | none => exact .stop _
  | some serial =>
      have enters : TracksForeground target (do
          jobAddProcess serial proc
          let interactive ← gets (·.interactive)
          if !async && interactive && !ctx.background then
            let _ ← jobSetForeground serial true false
          pure proc : Leaf World Nat) := by
        refine .bind (jobAddProcess_tracks serial proc) fun _ => .bind (.gets _) fun interactive => ?_
        by_cases foreground : (!async && interactive && !ctx.background) = true
        · rw [if_pos foreground]
          simp only [Bool.and_eq_true, Bool.not_eq_true'] at foreground
          have same := (allowed foreground.1.1 foreground.2).trans job
          exact .bind (jobSetForeground_tracks serial true false fun _ => same) fun _ => .pure _
        · rw [if_neg foreground]
          exact .pure _
      exact enters

/-! ## The look at the jobs after a wait -/

/-- The status of a job, as `job_poll` finds it. -/
def polled (state : Shell World) (serial : Nat) : Option Int := do
  let job ← state.jobs.find? (·.serial == serial)
  let procs ← job.processes.mapM fun process => state.processes.find? (·.serial == process)
  jobPollLoop procs 0 false

def Running (state : Shell World) (serial : Nat) : Prop := polled state serial = some taskStatusWait

omit [System World] in
theorem findJob_done {serial : Nat} {job : Job} {state after : Shell World}
    (ended : Leaf.run (findJob serial) state = .done job after) :
    state.jobs.find? (·.serial == serial) = some job ∧ after = state := by
  rw [findJob, Leaf.run_gets_bind] at ended
  exact orCrash_done ended

omit [System World] in
theorem processes_done {serials : List Nat} {procs : List Process} {state after : Shell World}
    (ended : Leaf.run (serials.mapM findProcess) state = .done procs after) :
    serials.mapM (fun process => state.processes.find? (·.serial == process)) = some procs ∧ after = state := by
  induction serials generalizing procs after with
  | nil =>
      obtain ⟨rfl, rfl⟩ := Outcome.done.inj ended
      exact ⟨rfl, rfl⟩
  | cons serial serials ih =>
      rw [List.mapM_cons] at ended
      obtain ⟨proc, between, finds, rest⟩ := Leaf.run_bind_done.mp ended
      rw [findProcess, Leaf.run_gets_bind] at finds
      obtain ⟨found, rfl⟩ := orCrash_done finds
      obtain ⟨others, last, findsRest, returned⟩ := Leaf.run_bind_done.mp rest
      obtain ⟨foundRest, rfl⟩ := ih findsRest
      obtain ⟨rfl, rfl⟩ := Outcome.done.inj returned
      rw [List.mapM_cons, found, foundRest]
      exact ⟨rfl, rfl⟩

omit [System World] in
theorem jobPoll_done {serial : Nat} {status : Int} {state after : Shell World}
    (ended : Leaf.run (jobPoll serial) state = .done status after) :
    polled state serial = some status ∧ after = state := by
  obtain ⟨job, _, finds, rest⟩ := Leaf.run_bind_done.mp ended
  obtain ⟨found, rfl⟩ := findJob_done finds
  obtain ⟨procs, _, findsProcesses, crashes⟩ := Leaf.run_bind_done.mp rest
  obtain ⟨foundProcesses, rfl⟩ := processes_done findsProcesses
  obtain ⟨polls, rfl⟩ := orCrash_done crashes
  refine ⟨?_, rfl⟩
  rw [polled, found, Option.bind_eq_bind, Option.bind_some, foundProcesses, Option.bind_eq_bind, Option.bind_some,
    polls]

omit [System World] in
/-- What may only lower the foreground job does not change the status of a job. -/
theorem Lowers.polled {before after : Shell World} (lowers : Lowers before after) (serial : Nat) :
    polled after serial = polled before serial := by
  have same := @find_of_shape _ _ serial lowers.jobs
  unfold Mrsh.polled
  rw [lowers.processes]
  cases found : before.jobs.find? (·.serial == serial) with
  | none =>
      rw [found, Option.map_none, Option.map_eq_none_iff] at same
      rw [same]
  | some job =>
      rw [found, Option.map_some] at same
      obtain ⟨other, foundOther, shape⟩ := Option.map_eq_some_iff.mp same
      have processes : other.processes = job.processes := (Prod.mk.inj (Prod.mk.inj shape).2).2
      rw [foundOther, Option.bind_eq_bind, Option.bind_some, Option.bind_eq_bind, Option.bind_some, processes]

theorem jobSetForeground_registered {serial : Nat} {foreground cont done : Bool} {state after : Shell World}
    (ended : Leaf.run (jobSetForeground serial foreground cont) state = .done done after) :
    Registered state serial := by
  obtain ⟨job, _, finds, rest⟩ := Leaf.run_bind_done.mp ended
  obtain ⟨found, rfl⟩ := findJob_done finds
  obtain ⟨_, _, asserts, -⟩ := Leaf.run_bind_done.mp rest
  exact ⟨job, found, by simpa using (assertThat_done asserts).1⟩

theorem jobToBackground_done {job : Job} {state after : Shell World}
    (ended : Leaf.run (jobToBackground job) state = .done () after) : after.foregroundJob ≠ some job.serial := by
  rw [jobToBackground, Leaf.run_gets_bind] at ended
  split at ended
  · obtain ⟨pgid, _, _, rest⟩ := Leaf.run_bind_done.mp ended
    obtain ⟨_, _, _, saves⟩ := Leaf.run_bind_done.mp rest
    obtain ⟨reply, replied, _, restores⟩ := Leaf.run_bind_done.mp saves
    have none : after.foregroundJob = none := by
      cases reply with
      | error errno =>
          cases restores
          rfl
      | ok termModes =>
          cases restores
          rfl
    rw [none]
    exact nofun
  · rename_i other
    obtain ⟨-, rfl⟩ := Outcome.done.inj ended
    simpa using other

/-- With job control, a job that is sent to the background is not in the foreground. -/
theorem jobSetForeground_background {serial : Nat} {done : Bool} {state after : Shell World}
    (control : state.jobControl = true)
    (ended : Leaf.run (jobSetForeground serial false false) state = .done done after) :
    after.foregroundJob ≠ some serial := by
  obtain ⟨job, _, finds, asserting⟩ := Leaf.run_bind_done.mp ended
  obtain ⟨found, rfl⟩ := findJob_done finds
  have isSerial : job.serial = serial := by simpa using List.find?_some found
  obtain ⟨_, _, asserts, polling⟩ := Leaf.run_bind_done.mp asserting
  obtain ⟨-, rfl⟩ := assertThat_done asserts
  rw [Leaf.run_gets_bind, if_pos control] at polling
  obtain ⟨status, _, polls, lowering⟩ := Leaf.run_bind_done.mp polling
  obtain ⟨-, rfl⟩ := jobPoll_done polls
  simp only [Bool.false_and, Bool.false_eq_true, if_false] at lowering
  obtain ⟨_, lowered, lowers, notifying⟩ := Leaf.run_bind_done.mp lowering
  have gone := jobToBackground_done lowers
  obtain ⟨_, notified, notifies, returned⟩ := Leaf.run_bind_done.mp notifying
  obtain ⟨-, rfl⟩ := Outcome.done.inj returned
  have keeps : Lowers lowered notified := Run.Respects.done (jobQueueNotification_lowers serial) notifies
  rw [isSerial] at gone
  rcases keeps.foreground with same | none
  · rw [same]
    exact gone
  · rw [none]
    exact (Option.some_ne_none serial).symm

/-- After the look at all jobs, a job in the foreground is running. -/
theorem updateJobs_clears {serials : List Nat} {serial : Nat} {state after : Shell World} (listed : serial ∈ serials)
    (control : state.jobControl = true) (registered : Registered state serial)
    (ended : Leaf.run (updateJobs serials) state = .done () after) :
    after.foregroundJob ≠ some serial ∨ Running after serial := by
  induction serials generalizing state with
  | nil => cases listed
  | cons first serials ih =>
      obtain ⟨status, looked, polls, notifying⟩ := Leaf.run_bind_done.mp ended
      obtain ⟨polledStatus, same⟩ := jobPoll_done polls
      rw [same] at notifying
      obtain ⟨notified, lowersNotified, looking⟩ : ∃ notified, Lowers state notified ∧ Leaf.run (do
          let job ← findJob first
          if status != taskStatusWait && 0 < job.pgid then do
            let _ ← jobSetForeground first false false
            updateJobs serials
          else updateJobs serials : Leaf World Unit) notified = .done () after := by
        rw [Leaf.run_ite] at notifying
        split at notifying
        · obtain ⟨_, notified, notifies, rest⟩ := Leaf.run_bind_done.mp notifying
          exact ⟨notified, Run.Respects.done (jobQueueNotification_lowers first) notifies, rest⟩
        · exact ⟨state, Std.Refl.refl state, notifying⟩
      have notifiedControl : notified.jobControl = true := lowersNotified.control.trans control
      have notifiedRegistered := (lowersNotified.tracks none).registered serial registered
      obtain ⟨job, found, finds, sending⟩ := Leaf.run_bind_done.mp looking
      obtain ⟨foundJob, same⟩ := findJob_done finds
      rw [same, Leaf.run_ite] at sending
      by_cases isFirst : serial = first
      · subst isFirst
        obtain ⟨registeredJob, foundRegistered, started⟩ := notifiedRegistered
        obtain rfl : job = registeredJob := Option.some.inj (foundJob.symm.trans foundRegistered)
        by_cases running : status = taskStatusWait
        · -- a running job stays in the foreground
          have waits : ¬ (status != taskStatusWait && decide (0 < job.pgid)) = true := by simp [running]
          rw [if_neg waits] at sending
          have lowers := Run.Respects.done (updateJobs_lowers serials) sending
          refine .inr ?_
          rw [Running, lowers.polled, lowersNotified.polled, polledStatus, running]
        · have sends : (status != taskStatusWait && decide (0 < job.pgid)) = true := by simp [running, started]
          rw [if_pos sends] at sending
          obtain ⟨_, sent, sets, rest⟩ := Leaf.run_bind_done.mp sending
          have gone := jobSetForeground_background notifiedControl sets
          have lowers : Lowers sent after := Run.Respects.done (updateJobs_lowers serials) rest
          refine .inl ?_
          rcases lowers.foreground with kept | none
          · rw [kept]
            exact gone
          · rw [none]
            exact nofun
      · have later : serial ∈ serials := (List.mem_cons.mp listed).resolve_left isFirst
        split at sending
        · obtain ⟨_, sent, sets, rest⟩ := Leaf.run_bind_done.mp sending
          have lowers : Lowers notified sent := Run.Respects.done (jobSetForeground_background_lowers first) sets
          exact ih later (lowers.control.trans notifiedControl)
            ((lowers.tracks none).registered serial notifiedRegistered) rest
        · exact ih later notifiedControl notifiedRegistered sending

theorem updateJob_clears {pid : Int} {stat serial : Nat} {state after : Shell World}
    (control : state.jobControl = true) (registered : Registered state serial)
    (ended : Leaf.run (updateJob pid stat) state = .done () after) :
    after.foregroundJob ≠ some serial ∨ Running after serial := by
  obtain ⟨_, updated, updates, looking⟩ := Leaf.run_bind_done.mp ended
  have tracks : Tracks none state updated := Run.Respects.done (updateProcess_tracks pid stat) updates
  rw [Leaf.run_gets_bind, if_pos (tracks.control.trans control), Leaf.run_gets_bind] at looking
  have registeredUpdated := tracks.registered serial registered
  obtain ⟨job, found, -⟩ := id registeredUpdated
  have listed : serial ∈ updated.jobs.map (·.serial) := by
    have isSerial : job.serial = serial := by simpa using List.find?_some found
    rw [← isSerial]
    exact List.mem_map_of_mem (List.mem_of_find?_eq_some found)
  exact updateJobs_clears listed (tracks.control.trans control) registeredUpdated looking

theorem waitpidLoop_clears {pid : Int} {untraced : Bool} {fuel serial : Nat} {state after : Shell World}
    (control : state.jobControl = true) (registered : Registered state serial)
    (ended : Leaf.run (waitpidLoop pid false untraced fuel) state = .done true after) :
    after.foregroundJob ≠ some serial ∨ Running after serial := by
  induction fuel generalizing state with
  | zero => cases ended
  | succ fuel ih =>
      obtain ⟨reply, asked, asks, replying⟩ := Leaf.run_bind_done.mp ended
      have tracks : Tracks none state asked := Run.Respects.done ((call_lowers _).tracks none) asks
      have askedControl := tracks.control.trans control
      have askedRegistered := tracks.registered serial registered
      cases reply with
      | error errno =>
          cases errno with
          | eintr => exact ih askedControl askedRegistered replying
          | _ => cases replying
      | ok reported =>
          obtain ⟨ret, stat⟩ := reported
          rw [Leaf.run_ite] at replying
          split at replying
          · obtain ⟨_, _, asserts, -⟩ := Leaf.run_bind_done.mp replying
            cases asserts
          · obtain ⟨_, asserted, asserts, updating⟩ := Leaf.run_bind_done.mp replying
            obtain ⟨-, same⟩ := assertThat_done asserts
            rw [same] at updating
            obtain ⟨_, updated, updates, returned⟩ := Leaf.run_bind_done.mp updating
            obtain ⟨-, rfl⟩ := Outcome.done.inj returned
            exact updateJob_clears askedControl askedRegistered updates

theorem jobWaitPid_clears {fuel serial : Nat} {pid : Int} {state after : Shell World}
    (control : state.jobControl = true) (registered : Registered state serial)
    (ended : Leaf.run (jobWaitPid fuel pid false) state = .done true after) :
    after.foregroundJob ≠ some serial ∨ Running after serial := by
  obtain ⟨_, asked, asks, asserting⟩ := Leaf.run_bind_done.mp ended
  have tracks : Tracks none state asked := Run.Respects.done ((call_lowers _).tracks none) asks
  obtain ⟨_, asserted, asserts, reading⟩ := Leaf.run_bind_done.mp asserting
  obtain ⟨-, same⟩ := assertThat_done asserts
  rw [same, Leaf.run_gets_bind] at reading
  exact waitpidLoop_clears (tracks.control.trans control) (tracks.registered serial registered) reading

theorem initChild_registered {ctx : Context} {pid : Int} {async : Bool} {proc : Nat} {state after : Shell World}
    (ended : Leaf.run (initChild ctx pid async) state = .done proc after) :
    after.foregroundJob = state.foregroundJob ∨ after.foregroundJob = none ∨
      ∃ serial, ctx.job = some serial ∧ Registered after serial := by
  obtain ⟨_, created, creates, asking⟩ := Leaf.run_bind_done.mp ended
  have sameCreated : created.foregroundJob = state.foregroundJob := by
    cases creates
    rfl
  rw [Leaf.run_bind, optionSet, Leaf.run_gets, Outcome.andThen_done, Leaf.run_ite] at asking
  split at asking
  · obtain ⟨serial, _, crashes, adding⟩ := Leaf.run_bind_done.mp asking
    obtain ⟨job, same⟩ := orCrash_done crashes
    rw [same] at adding
    obtain ⟨_, added, adds, entering⟩ := Leaf.run_bind_done.mp adding
    rw [Leaf.run_gets_bind, Leaf.run_ite] at entering
    split at entering
    · obtain ⟨_, entered, enters, returned⟩ := Leaf.run_bind_done.mp entering
      obtain ⟨-, rfl⟩ := Outcome.done.inj returned
      have tracks : Tracks (some serial) added entered :=
        Run.Respects.done (jobSetForeground_tracks serial true false fun _ => rfl) enters
      exact .inr (.inr ⟨serial, job, tracks.registered serial (jobSetForeground_registered enters)⟩)
    · obtain ⟨-, rfl⟩ := Outcome.done.inj entering
      have tracks : Tracks none created added := Run.Respects.done (jobAddProcess_tracks serial _) adds
      rw [← sameCreated]
      exact tracks.foreground.imp_right fun cleared => .inl (cleared.elim id id)
  · obtain ⟨-, rfl⟩ := Outcome.done.inj asking
    exact .inl sameCreated

/-! ## The shell and its jobs -/

/-- What the shell is doing. -/
inductive Activity where
  | idle
  /-- `run_pipeline` or `run_process` starts the children of a job. -/
  | starting (job : Nat) (procs : List Nat)
  /-- They wait for the children that are left. Some wait may have reported one. -/
  | waiting (job : Nat) (procs : List Nat) (reported : Bool)
  /-- `fg` waits for a job, unless it could not continue it. -/
  | resumed (job : Nat) (continued reported : Bool)
deriving DecidableEq

structure Situation (World : Type) where
  shell : Shell World
  activity : Activity

inductive JobEvent (World : Type) where
  /-- Anything happens outside the shell. -/
  | outside (world : World)
  | jobCreate (node : JobNode)
  | runPipeline (job : Nat)
  /-- The parent's part of a `fork`. -/
  | initChild (pid : Int)
  /-- `pipe` or `fork` fails. -/
  | forkFails
  | childrenStarted
  | jobWait (fuel : Nat)
  /-- What was waited for is not running. -/
  | goOn
  | fg (job : Nat)
  | bg (job : Nat)
  | initAsyncChild (ctx : Context) (pid : Int)
  /-- A wait for a process that no pipeline started. -/
  | jobWaitPid (fuel : Nat) (pid : Int)
  | refreshJobsStatus (fuel : Nat)
  | jobDestroy (job : Nat)

/-- The situation after a run that ends. -/
def situationAfter (outcome : Outcome Ending (Shell World) α) (activity : α → Activity) : Option (Situation World) :=
  match outcome with
  | .done value shell => some { shell, activity := activity value }
  | .stopped _ _ => none

/-- The status of a process, as `process_poll` finds it. -/
def processStatus (state : Shell World) (serial : Nat) : Option Int :=
  (state.processes.find? (·.serial == serial)).bind processPoll

/-- The process that is waited for. -/
def runningProcess (state : Shell World) (serial : Nat) : Option Process := do
  let job ← state.jobs.find? (·.serial == serial)
  let procs ← job.processes.mapM fun process => state.processes.find? (·.serial == process)
  procs.find? fun proc => processPoll proc == some taskStatusWait

def Situation.step (situation : Situation World) (event : JobEvent World) : Option (Situation World) :=
  let { shell, activity } := situation
  match event, activity with
  | .outside world, _ => some { shell := { shell with world }, activity }
  | .jobCreate node, .idle => situationAfter (Leaf.run (jobCreate node) shell) fun _ => .idle
  | .runPipeline job, .idle => some { shell, activity := .starting job [] }
  | .initChild pid, .starting job procs =>
      situationAfter (Leaf.run (initChild { job := some job, background := false } pid false) shell) fun proc =>
        .starting job (procs ++ [proc])
  | .forkFails, .starting _ _ => some { shell, activity := .idle }
  | .childrenStarted, .starting job procs => some { shell, activity := .waiting job procs false }
  | .jobWait fuel, .waiting job (proc :: procs) _ =>
      if processStatus shell proc = some taskStatusWait then do
        let process ← shell.processes.find? (·.serial == proc)
        situationAfter (Leaf.run (jobWaitPid fuel process.pid false) shell) fun ok =>
          if ok then .waiting job (proc :: procs) true else .idle
      else none
  | .goOn, .waiting job (proc :: procs) reported => do
      let status ← processStatus shell proc
      if status = taskStatusWait then none
      else some { shell, activity := if status < 0 then .idle else .waiting job procs reported }
  | .goOn, .waiting _ [] _ => some { shell, activity := .idle }
  | .fg job, .idle => situationAfter (Leaf.run (jobSetForeground job true true) shell) fun ok => .resumed job ok false
  | .jobWait fuel, .resumed job true _ =>
      if polled shell job = some taskStatusWait then do
        let process ← runningProcess shell job
        situationAfter (Leaf.run (jobWaitPid fuel process.pid false) shell) fun ok =>
          if ok then .resumed job true true else .idle
      else none
  | .goOn, .resumed job true _ =>
      match polled shell job with
      | none => none
      | some status => if status = taskStatusWait then none else some { shell, activity := .idle }
  | .goOn, .resumed _ false _ => some { shell, activity := .idle }
  | .bg job, .idle => situationAfter (Leaf.run (jobSetForeground job false true) shell) fun _ => .idle
  | .initAsyncChild ctx pid, .idle => situationAfter (Leaf.run (initChild ctx pid true) shell) fun _ => .idle
  | .jobWaitPid fuel pid, .idle => situationAfter (Leaf.run (jobWaitPid fuel pid false) shell) fun _ => .idle
  | .refreshJobsStatus fuel, .idle => situationAfter (Leaf.run (refreshJobsStatus fuel) shell) fun _ => .idle
  | .jobDestroy job, .idle => situationAfter (Leaf.run (jobDestroy job) shell) fun _ => .idle
  | _, _ => none

/-- The job that a command has put in the foreground, and whether a wait has reported a
process since. -/
def Activity.job : Activity → Option (Nat × Bool)
  | .idle => none
  | .starting _ [] => none
  | .starting job (_ :: _) => some (job, false)
  | .waiting job _ reported => some (job, reported)
  | .resumed job _ reported => some (job, reported)

/-- A command that ends has waited until its job is not running any more. -/
def EndsWaited (taken : Situation World × JobEvent World) : Prop :=
  ∀ job reported after, taken.1.activity.job = some (job, reported) → taken.1.step taken.2 = some after →
    after.activity = .idle → reported = true ∧ ¬ Running taken.1.shell job

/-- The job that the event would put in the foreground. -/
def Situation.enters (situation : Situation World) (event : JobEvent World) : Option Nat :=
  match event, situation.activity with
  | .initChild _, .starting job _ => some job
  | .fg job, .idle => some job
  | _, _ => none

/-! ## The waiting functions take these steps -/

omit [System World] in
theorem findProcess_done {serial : Nat} {proc : Process} {state after : Shell World}
    (ended : Leaf.run (findProcess serial) state = .done proc after) :
    state.processes.find? (·.serial == serial) = some proc ∧ after = state := by
  rw [findProcess, Leaf.run_gets_bind] at ended
  exact orCrash_done ended

theorem jobWaitProcess_traced {proc fuel job : Nat} {procs : List Nat} {ret : Int} {shell after : Shell World}
    (reported : Bool) (ended : Leaf.run (jobWaitProcess proc fuel) shell = .done ret after) :
    ∃ trace final, Traced Situation.step { shell, activity := .waiting job (proc :: procs) reported } trace
        { shell := after, activity := final } ∧
      (final = .idle ∧ ret < 0 ∨ ∃ reported, final = .waiting job (proc :: procs) reported ∧
        processStatus after proc = some ret ∧ ret ≠ taskStatusWait) := by
  induction fuel generalizing shell reported with
  | zero => cases ended
  | succ fuel ih =>
      obtain ⟨process, _, finds, polling⟩ := Leaf.run_bind_done.mp ended
      obtain ⟨found, same⟩ := findProcess_done finds
      rw [same] at polling
      obtain ⟨status, _, crashes, waiting⟩ := Leaf.run_bind_done.mp polling
      obtain ⟨polls, same⟩ := orCrash_done crashes
      have isStatus : processStatus shell proc = some status := by
        rw [processStatus, found, Option.bind_some, polls]
      rw [same, Leaf.run_ite] at waiting
      by_cases running : status = taskStatusWait
      · have waits : ¬ (status != taskStatusWait) = true := by simp [running]
        rw [if_neg waits] at waiting
        obtain ⟨ok, reaped, reaps, goesOn⟩ := Leaf.run_bind_done.mp waiting
        have stepsTo : Situation.step { shell, activity := .waiting job (proc :: procs) reported } (.jobWait fuel) =
            some { shell := reaped, activity := if ok then .waiting job (proc :: procs) true else .idle } := by
          simp only [Situation.step, isStatus, running, if_true, found, Option.bind_eq_bind, Option.bind_some, reaps,
            situationAfter]
        cases ok with
        | false =>
            obtain ⟨rfl, rfl⟩ := Outcome.done.inj goesOn
            exact ⟨_, .idle, .single stepsTo, .inl ⟨rfl, by decide⟩⟩
        | true =>
            obtain ⟨trace, final, run, ends⟩ := ih true goesOn
            exact ⟨_, final, Traced.trans (.single stepsTo) run, ends⟩
      · have settled : (status != taskStatusWait) = true := by simpa using running
        rw [if_pos settled] at waiting
        obtain ⟨rfl, rfl⟩ := Outcome.done.inj waiting
        exact ⟨[], _, .nil, .inr ⟨reported, rfl, isStatus, running⟩⟩

/-- The loop of `run_pipeline` over its processes ends the command. -/
theorem waitProcesses_traced {fuel job : Nat} {procs : List Nat} {status ret : Int} {shell after : Shell World}
    (reported : Bool) (ended : Leaf.run (waitProcesses fuel procs status) shell = .done ret after) :
    ∃ trace, Traced Situation.step { shell, activity := .waiting job procs reported } trace
      { shell := after, activity := .idle } := by
  induction procs generalizing shell status reported with
  | nil =>
      obtain ⟨rfl, rfl⟩ := Outcome.done.inj ended
      exact ⟨_, @Traced.single _ _ Situation.step _ _ .goOn rfl⟩
  | cons proc procs ih =>
      obtain ⟨found, waited, waits, goesOn⟩ := Leaf.run_bind_done.mp ended
      obtain ⟨trace, final, run, ends⟩ := @jobWaitProcess_traced _ _ proc fuel job procs _ _ _ reported waits
      rw [Leaf.run_ite] at goesOn
      rcases ends with ⟨rfl, failed⟩ | ⟨later, rfl, isStatus, settled⟩
      · rw [if_pos failed] at goesOn
        obtain ⟨rfl, rfl⟩ := Outcome.done.inj goesOn
        exact ⟨trace, run⟩
      · have stepsTo : Situation.step { shell := waited, activity := .waiting job (proc :: procs) later } .goOn =
            some { shell := waited, activity := if found < 0 then .idle else .waiting job procs later } := by
          simp only [Situation.step, isStatus, Option.bind_eq_bind, Option.bind_some, if_neg settled]
        by_cases failed : found < 0
        · rw [if_pos failed] at goesOn stepsTo
          obtain ⟨rfl, rfl⟩ := Outcome.done.inj goesOn
          exact ⟨_, run.trans (.single stepsTo)⟩
        · rw [if_neg failed] at goesOn stepsTo
          obtain ⟨rest, runRest⟩ := ih later goesOn
          exact ⟨_, (run.trans (.single stepsTo)).trans runRest⟩

/-- `job_wait`, after `fg` has continued the job. -/
theorem jobWait_traced {fuel job : Nat} {ret : Int} {shell after : Shell World}
    (reported : Bool) (ended : Leaf.run (jobWait job fuel) shell = .done ret after) :
    ∃ trace, Traced Situation.step { shell, activity := .resumed job true reported } trace
      { shell := after, activity := .idle } := by
  induction fuel generalizing shell reported with
  | zero => cases ended
  | succ fuel ih =>
      obtain ⟨status, _, polls, waiting⟩ := Leaf.run_bind_done.mp ended
      obtain ⟨isStatus, same⟩ := jobPoll_done polls
      rw [same, Leaf.run_ite] at waiting
      by_cases running : status = taskStatusWait
      · have waits : ¬ (status != taskStatusWait) = true := by simp [running]
        rw [if_neg waits] at waiting
        obtain ⟨registered, _, finds, asking⟩ := Leaf.run_bind_done.mp waiting
        obtain ⟨found, same⟩ := findJob_done finds
        rw [same] at asking
        obtain ⟨process, _, gets, crashing⟩ := Leaf.run_bind_done.mp asking
        obtain ⟨procs, _, findsProcesses, chosen⟩ := Leaf.run_bind_done.mp gets
        obtain ⟨foundProcesses, same⟩ := processes_done findsProcesses
        rw [same] at chosen
        obtain ⟨isProcess, same⟩ := Outcome.done.inj chosen
        rw [← same] at crashing
        obtain ⟨proc, _, crashes, reaping⟩ := Leaf.run_bind_done.mp crashing
        obtain ⟨isRunning, same⟩ := orCrash_done crashes
        rw [same] at reaping
        obtain ⟨ok, reaped, reaps, goesOn⟩ := Leaf.run_bind_done.mp reaping
        have waitsFor : runningProcess shell job = some proc := by
          rw [runningProcess, found, Option.bind_eq_bind, Option.bind_some, foundProcesses, Option.bind_eq_bind,
            Option.bind_some, isProcess, isRunning]
        have stepsTo : Situation.step { shell, activity := .resumed job true reported } (.jobWait fuel) =
            some { shell := reaped, activity := if ok then .resumed job true true else .idle } := by
          simp only [Situation.step, isStatus, running, if_true, waitsFor, Option.bind_eq_bind, Option.bind_some, reaps,
            situationAfter]
        cases ok with
        | false =>
            obtain ⟨rfl, rfl⟩ := Outcome.done.inj goesOn
            exact ⟨_, .single stepsTo⟩
        | true =>
            obtain ⟨trace, run⟩ := ih true goesOn
            exact ⟨_, Traced.trans (.single stepsTo) run⟩
      · have settled : (status != taskStatusWait) = true := by simpa using running
        rw [if_pos settled] at waiting
        obtain ⟨rfl, rfl⟩ := Outcome.done.inj waiting
        have stepsTo : Situation.step { shell, activity := .resumed job true reported } .goOn =
            some { shell, activity := .idle } := by
          simp only [Situation.step, isStatus, if_neg running]
        exact ⟨_, .single stepsTo⟩

/-! ## The assertion -/

/-- The assertion of `job_set_foreground`, for all that the shell may do next. -/
def ForegroundFree (situation : Situation World) : Prop :=
  ∀ event job, situation.enters event = some job →
    situation.shell.foregroundJob = none ∨ situation.shell.foregroundJob = some job

/-- With a command in progress, only its job is in the foreground, and is running once a
wait has reported a process. -/
def HeldBy (state : Shell World) : Option (Nat × Bool) → Prop
  | none => state.foregroundJob = none
  | some (job, reported) => state.foregroundJob = none ∨
      state.foregroundJob = some job ∧ Registered state job ∧ (reported = true → Running state job)

structure Situation.Held (situation : Situation World) : Prop where
  control : situation.shell.jobControl = true
  held : HeldBy situation.shell situation.activity.job

omit [System World] in
theorem situationAfter_some {outcome : Outcome Ending (Shell World) α} {activity : α → Activity}
    {after : Situation World} (ended : situationAfter outcome activity = some after) :
    ∃ value, outcome = .done value after.shell ∧ after.activity = activity value := by
  cases outcome with
  | done value shell =>
      cases ended
      exact ⟨value, rfl, rfl⟩
  | stopped ending shell => cases ended

omit [System World] in
theorem Tracks.cleared {before after : Shell World} (tracks : Tracks none before after)
    (cleared : before.foregroundJob = none) : after.foregroundJob = none := by
  rcases tracks.foreground with same | none | none
  · exact same.trans cleared
  · exact none
  · exact none

omit [System World] in
theorem Situation.Held.idle {shell : Shell World} {prog : Leaf World α} {after : Situation World}
    (held : Situation.Held { shell, activity := .idle }) (tracks : TracksForeground none prog)
    (ended : situationAfter (Leaf.run prog shell) (fun _ => .idle) = some after) : after.Held := by
  obtain ⟨value, runs, idle⟩ := situationAfter_some ended
  have kept : Tracks none shell after.shell := Run.Respects.done tracks runs
  refine ⟨kept.control.trans held.control, ?_⟩
  rw [idle]
  exact kept.cleared held.held

omit [System World] in
/-- A command that ends as it should leaves no job in the foreground. -/
theorem Situation.Held.ends {shell : Shell World} {activity : Activity} (held : Situation.Held { shell, activity })
    (waited : ∀ job reported, activity.job = some (job, reported) → reported = true ∧ ¬ Running shell job) :
    shell.foregroundJob = none := by
  have heldBy := held.held
  cases command : activity.job with
  | none =>
      rw [command] at heldBy
      exact heldBy
  | some found =>
      obtain ⟨job, reported⟩ := found
      obtain ⟨isReported, stopped⟩ := waited job reported command
      rw [command] at heldBy
      exact heldBy.resolve_right fun both => stopped (both.2.2 isReported)

theorem Situation.Held.jobWaitPid {shell : Shell World} {activity : Activity} {after : Situation World}
    {job fuel : Nat} {pid : Int} {reported : Bool} {goesOn : Activity}
    (held : Situation.Held { shell, activity }) (command : activity.job = some (job, reported))
    (goesOnJob : goesOn.job = some (job, true))
    (waited : after.activity = .idle → reported = true ∧ ¬ Running shell job)
    (ended : situationAfter (Leaf.run (jobWaitPid fuel pid false) shell) (fun ok => if ok then goesOn else .idle) =
      some after) : after.Held := by
  obtain ⟨ok, runs, activityAfter⟩ := situationAfter_some ended
  have kept : Tracks none shell after.shell := Run.Respects.done (jobWaitPid_tracks fuel pid false) runs
  refine ⟨kept.control.trans held.control, ?_⟩
  cases ok with
  | false =>
      rw [activityAfter]
      refine kept.cleared (held.ends fun other found same => ?_)
      rw [command] at same
      cases same
      exact waited activityAfter
  | true =>
      have heldBy := held.held
      rw [activityAfter, if_pos rfl, goesOnJob]
      rw [command] at heldBy
      rcases heldBy with none | ⟨foreground, registered, -⟩
      · exact .inl (kept.cleared none)
      · rcases jobWaitPid_clears held.control registered runs with gone | running
        · rcases kept.foreground with same | none | none
          · exact absurd (same.trans foreground) gone
          · exact .inl none
          · exact .inl none
        · rcases kept.foreground with same | none | none
          · exact .inr ⟨same.trans foreground, kept.registered job registered, fun _ => running⟩
          · exact .inl none
          · exact .inl none

omit [System World] in
theorem destroyProcesses_tracks (serials : List Nat) :
    TracksForeground none (destroyProcesses serials : Leaf World Unit) := by
  induction serials with
  | nil => exact .pure _
  | cons serial serials ih =>
      have destroys : TracksForeground none (processDestroy serial : Leaf World Unit) :=
        .bind (findProcess_within serial) fun _ => update_tracks _ (fun _ => rfl) (fun _ => rfl)
          fun _ => .inl rfl
      exact .bind destroys fun _ => ih

theorem jobDestroy_cleared {serial : Nat} {state after : Shell World} (cleared : state.foregroundJob = none)
    (ended : Leaf.run (jobDestroy serial) state = .done () after) :
    after.jobControl = state.jobControl ∧ after.foregroundJob = none := by
  obtain ⟨job, _, finds, asking⟩ := Leaf.run_bind_done.mp ended
  obtain ⟨-, same⟩ := findJob_done finds
  have background : ¬ (state.foregroundJob == some serial) = true := by
    rw [cleared]
    exact nofun
  rw [same, Leaf.run_gets_bind, if_neg background] at asking
  obtain ⟨_, removed, removes, destroys⟩ := Leaf.run_bind_done.mp asking
  cases removes
  have tracks := Run.Respects.done (destroyProcesses_tracks job.processes) destroys
  exact ⟨tracks.control, tracks.cleared cleared⟩

theorem Situation.Held.initChild {shell : Shell World} {after : Situation World} {job : Nat} {procs : List Nat}
    {pid : Int}
    (held : Situation.Held { shell, activity := .starting job procs })
    (steps : situationAfter (Leaf.run (initChild { job := some job, background := false } pid false) shell)
      (fun proc => .starting job (procs ++ [proc])) = some after) : after.Held := by
  obtain ⟨proc, runs, activityAfter⟩ := situationAfter_some steps
  have kept : Tracks (some job) shell after.shell :=
    Run.Respects.done (initChild_tracks { job := some job, background := false } pid false fun _ _ => rfl) runs
  refine ⟨kept.control.trans held.control, ?_⟩
  have command : after.activity.job = some (job, false) := by
    rw [activityAfter]
    cases procs <;> rfl
  rw [command]
  have before : shell.foregroundJob = none ∨ shell.foregroundJob = some job ∧ Registered shell job := by
    have heldBy := held.held
    cases procs with
    | nil => exact .inl heldBy
    | cons first procs => exact heldBy.imp_right fun both => ⟨both.1, both.2.1⟩
  have sameOrNone : after.shell.foregroundJob = shell.foregroundJob →
      HeldBy after.shell (some (job, false)) := by
    intro same
    apply before.imp same.trans
    intro both
    exact ⟨same.trans both.1, kept.registered job both.2, nofun⟩
  rcases initChild_registered runs with same | none | ⟨serial, isJob, registered⟩
  · exact sameOrNone same
  · exact .inl none
  · cases isJob
    rcases kept.foreground with same | none | set
    · exact sameOrNone same
    · exact .inl none
    · exact .inr ⟨set, registered, nofun⟩

theorem Situation.Held.fg {shell : Shell World} {after : Situation World} {job : Nat}
    (held : Situation.Held { shell, activity := .idle })
    (steps : situationAfter (Leaf.run (jobSetForeground job true true) shell) (fun ok => .resumed job ok false) =
      some after) : after.Held := by
  obtain ⟨ok, runs, activityAfter⟩ := situationAfter_some steps
  have kept : Tracks (some job) shell after.shell :=
    Run.Respects.done (jobSetForeground_tracks job true true fun _ => rfl) runs
  refine ⟨kept.control.trans held.control, ?_⟩
  rw [activityAfter]
  rcases kept.foreground with same | none | set
  · exact .inl (same.trans held.held)
  · exact .inl none
  · exact .inr ⟨set, kept.registered job (jobSetForeground_registered runs), nofun⟩

omit [System World] in
theorem Situation.Held.stop {shell : Shell World} {activity : Activity}
    (held : Situation.Held { shell, activity })
    (waited : ∀ job reported, activity.job = some (job, reported) → reported = true ∧ ¬ Running shell job) :
    Situation.Held { shell, activity := .idle } := ⟨held.control, held.ends waited⟩

theorem Situation.Held.jobWait {shell : Shell World} {activity : Activity} {fuel : Nat} {after : Situation World}
    (held : Situation.Held { shell, activity })
    (waits : after.activity = .idle → ∀ job reported, activity.job = some (job, reported) →
      reported = true ∧ ¬ Running shell job)
    (steps : Situation.step { shell, activity } (.jobWait fuel) = some after) : after.Held := by
  cases activity with
  | waiting job procs reported =>
      cases procs with
      | nil => cases steps
      | cons proc procs =>
          simp only [Situation.step] at steps
          split at steps
          · obtain ⟨process, -, steps⟩ := Option.bind_eq_some_iff.mp steps
            exact held.jobWaitPid rfl rfl (fun idle => waits idle job reported rfl) steps
          · cases steps
  | resumed job continued reported =>
      cases continued with
      | false => cases steps
      | true =>
          simp only [Situation.step] at steps
          split at steps
          · obtain ⟨process, -, steps⟩ := Option.bind_eq_some_iff.mp steps
            exact held.jobWaitPid rfl rfl (fun idle => waits idle job reported rfl) steps
          · cases steps
  | _ => cases steps

theorem Situation.Held.goOn {shell : Shell World} {activity : Activity} {after : Situation World}
    (held : Situation.Held { shell, activity })
    (waits : after.activity = .idle → ∀ job reported, activity.job = some (job, reported) →
      reported = true ∧ ¬ Running shell job)
    (steps : Situation.step { shell, activity } .goOn = some after) : after.Held := by
  cases activity with
  | waiting job procs reported =>
      cases procs with
      | nil =>
          cases steps
          exact held.stop (waits rfl)
      | cons proc procs =>
          simp only [Situation.step] at steps
          obtain ⟨status, -, steps⟩ := Option.bind_eq_some_iff.mp steps
          split at steps
          · cases steps
          · cases steps
            by_cases negative : status < 0
            · have stopped := held.stop (waits (if_pos negative))
              rw [if_pos negative]
              exact stopped
            · rw [if_neg negative]
              exact ⟨held.control, held.held⟩
  | resumed job continued reported =>
      cases continued with
      | false =>
          cases steps
          exact held.stop (waits rfl)
      | true =>
          simp only [Situation.step] at steps
          split at steps
          · cases steps
          · split at steps
            · cases steps
            · cases steps
              exact held.stop (waits rfl)
  | _ => cases steps

theorem Situation.Held.step {before after : Situation World} {event : JobEvent World} (held : before.Held)
    (waited : EndsWaited (before, event)) (steps : before.step event = some after) : after.Held := by
  obtain ⟨shell, activity⟩ := before
  have waits : after.activity = .idle → ∀ job reported, activity.job = some (job, reported) →
      reported = true ∧ ¬ Running shell job :=
    fun idle job reported command => waited job reported after command steps idle
  cases event with
  | outside world =>
      cases steps
      exact ⟨held.control, held.held⟩
  | jobCreate node =>
      cases activity with
      | idle => exact held.idle (jobCreate_tracks node) steps
      | _ => cases steps
  | runPipeline job =>
      cases activity with
      | idle =>
          cases steps
          exact ⟨held.control, held.held⟩
      | _ => cases steps
  | initChild pid =>
      cases activity with
      | starting job procs => exact held.initChild steps
      | _ => cases steps
  | forkFails =>
      cases activity with
      | starting job procs =>
          cases steps
          exact held.stop (waits rfl)
      | _ => cases steps
  | childrenStarted =>
      cases activity with
      | starting job procs =>
          cases steps
          refine ⟨held.control, ?_⟩
          cases procs with
          | nil => exact .inl held.held
          | cons proc procs => exact held.held
      | _ => cases steps
  | jobWait fuel => exact held.jobWait waits steps
  | goOn => exact held.goOn waits steps
  | fg job =>
      cases activity with
      | idle => exact held.fg steps
      | _ => cases steps
  | bg job =>
      cases activity with
      | idle => exact held.idle (jobSetForeground_tracks job false true nofun) steps
      | _ => cases steps
  | initAsyncChild ctx pid =>
      cases activity with
      | idle => exact held.idle (initChild_tracks ctx pid true nofun) steps
      | _ => cases steps
  | jobWaitPid fuel pid =>
      cases activity with
      | idle => exact held.idle (jobWaitPid_tracks fuel pid false) steps
      | _ => cases steps
  | refreshJobsStatus fuel =>
      cases activity with
      | idle => exact held.idle (refreshJobsStatus_tracks fuel) steps
      | _ => cases steps
  | jobDestroy job =>
      cases activity with
      | idle =>
          obtain ⟨_, runs, activityAfter⟩ := situationAfter_some steps
          obtain ⟨control, cleared⟩ := jobDestroy_cleared held.held runs
          refine ⟨control.trans held.control, ?_⟩
          rw [activityAfter]
          exact cleared
      | _ => cases steps

omit [System World] in
/-- Only the job that a command may put in the foreground is in it. -/
theorem Situation.Held.foregroundFree {situation : Situation World} (held : situation.Held) :
    ForegroundFree situation := by
  obtain ⟨shell, activity⟩ := situation
  intro event job enters
  have heldBy := held.held
  cases event with
  | initChild pid =>
      cases activity with
      | starting other procs =>
          obtain rfl := Option.some.inj enters
          cases procs with
          | nil => exact .inl heldBy
          | cons proc procs => exact heldBy.imp_right fun both => both.1
      | _ => cases enters
  | fg other =>
      cases activity with
      | idle => exact .inl heldBy
      | _ => cases enters
  | _ => cases activity <;> cases enters

/-- In a run whose commands all end after a wait has reported a process and their job is not
running any more, the assertion of `job_set_foreground` holds in every situation. -/
theorem foregroundJob_free (start : Shell World) (control : start.jobControl = true)
    (cleared : start.foregroundJob = none) (trace : List (Situation World × JobEvent World))
    (situation : Situation World)
    (run : Traced Situation.step { shell := start, activity := .idle } trace situation)
    (waited : ∀ taken ∈ trace, EndsWaited taken) : ForegroundFree situation := by
  have initial : Situation.Held { shell := start, activity := .idle } := ⟨control, cleared⟩
  have held := @Traced.preserves _ _ _ _ _ _ EndsWaited (fun _ => Situation.Held) initial
    (fun _ before event after held waited steps => held.step waited steps) run waited
  exact held.foregroundFree

end

/-- A machine on which every wait reports the wait status. -/
@[reducible] def reportingSystem (stat : Nat) : System Machine :=
  { (inferInstance : System Machine) with waitpid := fun pid _ _ machine => (.ok (pid, stat), machine) }

/-- An interactive shell with job control. -/
def jobControlShell : Shell Machine := { monitoringShell with interactive := true, jobControl := true }

section

variable [System Machine]

/-- Checks that a command has waited before it ends. -/
def endsWaited (taken : Situation Machine × JobEvent Machine) : Bool :=
  match taken.1.activity.job, taken.1.step taken.2 with
  | some (job, reported), some after =>
      after.activity != .idle || (reported && polled taken.1.shell job != some taskStatusWait)
  | _, _ => true

theorem EndsWaited.of_check {taken : Situation Machine × JobEvent Machine} (checked : endsWaited taken = true) :
    EndsWaited taken := by
  intro job reported after command steps idle
  rw [endsWaited, command, steps] at checked
  simpa [idle, Running] using checked

end

/-- A pipeline of one process that exits, and the start of another one. -/
theorem foregroundJob_free_exited :
    ∃ trace situation,
      @Traced _ _ (@Situation.step Machine (reportingSystem 0)) ⟨jobControlShell, .idle⟩ trace situation ∧
      situation.activity = .starting 2 [] ∧ ForegroundFree situation := by
  let : System Machine := reportingSystem 0
  obtain ⟨trace, situation, run, checked⟩ := @traceOf_any _ _ (@Situation.step Machine _) ⟨jobControlShell, .idle⟩
    [.jobCreate (.commandList (exitCommand [])), .runPipeline 0, .initChild 2, .childrenStarted, .jobWait 1, .goOn,
      .goOn,
      .jobCreate (.commandList (exitCommand [])), .runPipeline 2]
    (fun ended => ended.1.all endsWaited && ended.2.activity == .starting 2 []) (by decide +kernel)
  rw [Bool.and_eq_true, List.all_eq_true, beq_iff_eq] at checked
  exact ⟨trace, situation, run, checked.2, foregroundJob_free jobControlShell rfl rfl trace situation run
    fun taken member => .of_check (checked.1 taken member)⟩

/-- The first process of a pipeline stops while the second one runs. -/
theorem foregroundJob_taken :
    ¬ ∀ (system : System Machine) (start : Shell Machine) (trace : List (Situation Machine × JobEvent Machine))
      (situation : Situation Machine), start.jobControl = true → start.foregroundJob = none →
      Traced (@Situation.step Machine system) { shell := start, activity := .idle } trace situation →
      ForegroundFree situation := by
  intro always
  let : System Machine := reportingSystem (sigstop * 256 + 127)
  obtain ⟨trace, situation, run, checked⟩ := @traceOf_any _ _ (@Situation.step Machine _) ⟨jobControlShell, .idle⟩
    [.jobCreate (.commandList (exitCommand [])), .runPipeline 0, .initChild 2, .initChild 3, .childrenStarted,
      .jobWait 1,
      .goOn, .jobCreate (.commandList (exitCommand [])), .runPipeline 3]
    (fun ended => ended.2.shell.foregroundJob == some 0 && ended.2.activity == .starting 3 []) (by decide +kernel)
  rw [Bool.and_eq_true, beq_iff_eq, beq_iff_eq] at checked
  obtain ⟨shell, activity⟩ := situation
  obtain ⟨foreground, rfl⟩ := checked
  have free := always _ jobControlShell trace _ rfl rfl run (.initChild 4) 3 rfl
  rw [foreground] at free
  exact free.elim nofun (by decide)

/-- A shell with a job of one process. -/
def waitingShell : Shell Machine :=
  { jobControlShell with
    processes := [⟨1, 5, false, false, 0, 0⟩]
    jobs := [⟨0, .commandList (exitCommand []), 5, 1, 0, [1], false, 0⟩] }

theorem waitProcesses_traced_exited :
    let : System Machine := reportingSystem 0
    ∃ trace, Traced Situation.step { shell := waitingShell, activity := .waiting 0 [1] false } trace
      { shell := (Leaf.run (waitProcesses 2 [1] 0) waitingShell).state, activity := .idle } := by
  let : System Machine := reportingSystem 0
  have ended : (Leaf.run (waitProcesses 2 [1] 0) waitingShell).value? = some 0 := by decide +kernel
  exact waitProcesses_traced false (Outcome.eq_done_of_value? ended)

theorem jobWait_traced_exited :
    let : System Machine := reportingSystem 0
    ∃ trace, Traced Situation.step { shell := waitingShell, activity := .resumed 0 true false } trace
      { shell := (Leaf.run (jobWait 0 2) waitingShell).state, activity := .idle } := by
  let : System Machine := reportingSystem 0
  have ended : (Leaf.run (jobWait 0 2) waitingShell).value? = some 0 := by decide +kernel
  exact jobWait_traced false (Outcome.eq_done_of_value? ended)

end Mrsh
