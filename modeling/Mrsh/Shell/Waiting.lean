import Mrsh.Numerals
import Mrsh.Shell.Task.Task

namespace Mrsh

open Mrsh.Data

/-! # Waiting for a process

A process that the shell waits for gets the status that `waitpid` reports, and
no other process changes. With job control the jobs are looked at after every
wait, which needs every process of a job to be known.
-/

section

variable {World : Type}

/-! ## Runs that only look at jobs -/

/-- The process of every job is known, and has a status. -/
def JobsKnown (state : Shell World) : Prop :=
  ∀ job ∈ state.jobs, ∀ serial ∈ job.processes, ∃ proc,
    state.processes.find? (·.serial == serial) = some proc ∧ (processPoll proc).isSome

/-- Neither the processes nor which of them a job has differ. -/
def SameProcesses (before after : Shell World) : Prop :=
  after.processes = before.processes ∧
    after.jobs.map (fun job => (job.serial, job.processes)) = before.jobs.map (fun job => (job.serial, job.processes))

theorem SameProcesses.refl (state : Shell World) : SameProcesses state state := ⟨rfl, rfl⟩

theorem SameProcesses.trans {before between after : Shell World} (first : SameProcesses before between)
    (second : SameProcesses between after) : SameProcesses before after :=
  ⟨second.1.trans first.1, second.2.trans first.2⟩

theorem SameProcesses.jobsKnown {before after : Shell World} (same : SameProcesses before after)
    (known : JobsKnown before) : JobsKnown after := by
  intro job member serial process
  have listed : (job.serial, job.processes) ∈ before.jobs.map (fun job => (job.serial, job.processes)) := by
    rw [← same.2]
    exact List.mem_map_of_mem member
  obtain ⟨other, otherMember, shape⟩ := List.mem_map.mp listed
  obtain ⟨_, processes⟩ := Prod.mk.inj shape
  obtain ⟨proc, found, polled⟩ := known other otherMember serial (processes ▸ process)
  exact ⟨proc, by rw [same.1]; exact found, polled⟩

theorem SameProcesses.serials {before after : Shell World} (same : SameProcesses before after) :
    after.jobs.map (·.serial) = before.jobs.map (·.serial) := by
  have serials := congrArg (List.map Prod.fst) same.2
  rw [List.map_map, List.map_map] at serials
  exact serials

/-- The run ends, and keeps the processes. -/
def Settles {α : Type} (prog : Leaf World α) (state : Shell World) : Prop :=
  ∃ value after, Leaf.run prog state = .done value after ∧ SameProcesses state after

theorem Settles.pure {α : Type} (value : α) (state : Shell World) : Settles (Pure.pure value : Leaf World α) state :=
  ⟨value, state, rfl, .refl state⟩

theorem Settles.bind {α β : Type} {prog : Leaf World α} {next : α → Leaf World β} {state : Shell World}
    (first : Settles prog state)
    (second : ∀ value after, Leaf.run prog state = .done value after → SameProcesses state after →
      Settles (next value) after) :
    Settles (prog >>= next) state := by
  obtain ⟨value, between, run, same⟩ := first
  obtain ⟨last, after, runNext, sameNext⟩ := second value between run same
  refine ⟨last, after, ?_, same.trans sameNext⟩
  rw [Leaf.run_bind, run]
  exact runNext

theorem Settles.ite {α : Type} {condition : Prop} [Decidable condition] {yes no : Leaf World α} {state : Shell World}
    (ifTrue : condition → Settles yes state) (ifFalse : ¬condition → Settles no state) :
    Settles (if condition then yes else no) state := by
  by_cases holds : condition
  · rw [if_pos holds]
    exact ifTrue holds
  · rw [if_neg holds]
    exact ifFalse holds

theorem Settles.gets {α : Type} (read : Shell World → α) (state : Shell World) : Settles (gets read) state :=
  ⟨read state, state, rfl, .refl state⟩

theorem Settles.call {α : Type} (request : World → α × World) (state : Shell World) :
    Settles (call request) state := ⟨_, _, rfl, rfl, rfl⟩

theorem modifyJob_settles (serial : Nat) (change : Job → Job)
    (keeps : ∀ job, (change job).serial = job.serial ∧ (change job).processes = job.processes) (state : Shell World) :
    Settles (modifyJob serial change) state := by
  refine ⟨(), _, rfl, rfl, ?_⟩
  change (state.jobs.map fun job => if job.serial = serial then change job else job).map _ = _
  rw [List.map_map]
  apply List.map_congr_left
  intro job _
  by_cases chosen : job.serial = serial
  · simp [chosen, keeps job]
  · simp [chosen]

theorem findJob_run {state : Shell World} {serial : Nat} (listed : serial ∈ state.jobs.map (·.serial)) :
    ∃ job ∈ state.jobs, job.serial = serial ∧ Leaf.run (findJob serial) state = .done job state := by
  obtain ⟨other, otherMember, rfl⟩ := List.mem_map.mp listed
  cases found : state.jobs.find? (·.serial == other.serial) with
  | none => exact absurd (List.find?_eq_none.mp found other otherMember) (by simp)
  | some job =>
      refine ⟨job, List.mem_of_find?_eq_some found, by simpa using List.find?_some found, ?_⟩
      simp [findJob, found]

theorem jobProcesses_run {state : Shell World} (serials : List Nat)
    (known : ∀ serial ∈ serials, ∃ proc, state.processes.find? (·.serial == serial) = some proc ∧
      (processPoll proc).isSome) :
    ∃ procs : List Process, Leaf.run (serials.mapM findProcess) state = .done procs state ∧
      ∀ proc ∈ procs, (processPoll proc).isSome := by
  induction serials with
  | nil => exact ⟨[], rfl, by simp⟩
  | cons serial serials ih =>
      rw [List.forall_mem_cons] at known
      obtain ⟨proc, found, polled⟩ := known.1
      obtain ⟨procs, run, all⟩ := ih known.2
      refine ⟨proc :: procs, ?_, List.forall_mem_cons.mpr ⟨polled, all⟩⟩
      simp [List.mapM_cons, findProcess, found, run]

theorem jobPollLoop_isSome (procs : List Process) (polled : ∀ proc ∈ procs, (processPoll proc).isSome) (status : Int)
    (stopped : Bool) : (jobPollLoop procs status stopped).isSome := by
  induction procs generalizing status stopped with
  | nil => rfl
  | cons proc procs ih =>
      rw [List.forall_mem_cons] at polled
      obtain ⟨first, found⟩ := Option.isSome_iff_exists.mp polled.1
      simp only [jobPollLoop, found, Option.bind_eq_bind, Option.bind_some]
      split
      · rfl
      · exact ih polled.2 _ _

theorem jobPoll_settles {state : Shell World} {serial : Nat} (known : JobsKnown state)
    (listed : serial ∈ state.jobs.map (·.serial)) :
    ∃ status, Leaf.run (jobPoll serial) state = .done status state := by
  obtain ⟨job, member, _, found⟩ := findJob_run listed
  obtain ⟨procs, run, polled⟩ := jobProcesses_run job.processes (known job member)
  obtain ⟨status, poll⟩ := Option.isSome_iff_exists.mp (jobPollLoop_isSome procs polled 0 false)
  exact ⟨status, by simp [jobPoll, found, jobProcesses, run, poll]⟩

theorem jobQueueNotification_settles {state : Shell World} {serial : Nat} (known : JobsKnown state)
    (listed : serial ∈ state.jobs.map (·.serial)) : Settles (jobQueueNotification serial) state := by
  obtain ⟨status, polled⟩ := jobPoll_settles known listed
  refine Settles.bind ⟨status, state, polled, .refl state⟩ fun _ _ _ _ => ?_
  apply Settles.bind (.gets _ _)
  intro _ after _ _
  refine modifyJob_settles _ _ ?_ after
  exact fun _ => ⟨rfl, rfl⟩

variable [System World]

theorem jobToBackground_settles (job : Job) (state : Shell World) : Settles (jobToBackground job) state := by
  have leaves : ∀ state : Shell World, Settles (do
      let termModes ← gets (·.termModes)
      let _ ← call (System.tcsetattr termModes)
      setForegroundJob none : Leaf World Unit) state := by
    intro state
    refine Settles.bind (.gets _ _) fun _ _ _ _ => Settles.bind (.call _ _) fun _ after _ _ => ?_
    exact ⟨(), _, rfl, rfl, rfl⟩
  refine Settles.bind (.gets _ _) fun _ _ _ _ => Settles.ite (fun _ => ?_) fun _ => .pure _ _
  refine Settles.bind (.gets _ _) fun _ _ _ _ => Settles.bind (.call _ _) fun _ _ _ _ =>
    Settles.bind (.call _ _) fun termModes between _ _ => ?_
  cases termModes with
  | error errno => exact leaves between
  | ok termModes =>
      refine Settles.bind ?_ fun _ after _ _ => leaves after
      refine modifyJob_settles _ _ ?_ _
      exact fun _ => ⟨rfl, rfl⟩

theorem jobSetForeground_settles {state : Shell World} {serial : Nat} (known : JobsKnown state)
    (listed : serial ∈ state.jobs.map (·.serial)) {job : Job}
    (found : Leaf.run (findJob serial) state = .done job state)
    (started : 0 < job.pgid) : Settles (jobSetForeground serial false false) state := by
  refine Settles.bind ⟨job, state, found, .refl state⟩ fun other between run same => ?_
  obtain ⟨rfl, rfl⟩ := Outcome.done.inj (found.symm.trans run)
  have asserted : Settles (assertThat (0 < job.pgid)) state := ⟨(), state, by simp [assertThat, started], .refl state⟩
  apply Settles.bind asserted
  intro _ _ _ same
  replace known := same.jobsKnown known
  replace listed := same.serials ▸ listed
  refine Settles.bind (.gets _ _) fun _ _ _ same => Settles.ite (fun _ => ?_) fun _ => .pure _ _
  replace known := same.jobsKnown known
  replace listed := same.serials ▸ listed
  obtain ⟨status, polled⟩ := jobPoll_settles known listed
  refine Settles.bind ⟨status, _, polled, .refl _⟩ fun _ _ _ same => ?_
  replace known := same.jobsKnown known
  replace listed := same.serials ▸ listed
  simp only [Bool.false_and, Bool.false_eq_true, if_false]
  apply Settles.bind (jobToBackground_settles job _)
  intro _ _ _ same
  replace known := same.jobsKnown known
  replace listed := same.serials ▸ listed
  exact Settles.bind (jobQueueNotification_settles known listed) fun _ _ _ _ => .pure _ _

theorem updateJobs_settles (serials : List Nat) {state : Shell World} (known : JobsKnown state)
    (listed : ∀ serial ∈ serials, serial ∈ state.jobs.map (·.serial)) : Settles (updateJobs serials) state := by
  induction serials generalizing state with
  | nil => exact .pure _ _
  | cons serial serials ih =>
      rw [List.forall_mem_cons] at listed
      obtain ⟨first, listed⟩ := listed
      obtain ⟨status, polled⟩ := jobPoll_settles known first
      have rest : ∀ after : Shell World, SameProcesses state after → Settles (updateJobs serials) after := by
        intro after same
        exact ih (same.jobsKnown known) fun other member => same.serials ▸ listed other member
      have foreground : ∀ between : Shell World, SameProcesses state between → Settles (do
          let job ← findJob serial
          if status != taskStatusWait && 0 < job.pgid then do
            let _ ← jobSetForeground serial false false
            updateJobs serials
          else updateJobs serials : Leaf World Unit) between := by
        intro between same
        have firstBetween := same.serials ▸ first
        obtain ⟨job, member, _, found⟩ := findJob_run firstBetween
        refine Settles.bind ⟨job, between, found, .refl between⟩ fun other again run sameAgain => ?_
        obtain ⟨rfl, rfl⟩ := Outcome.done.inj (found.symm.trans run)
        refine Settles.ite (fun started => ?_) fun _ => rest between same
        simp only [Bool.and_eq_true, decide_eq_true_eq] at started
        exact Settles.bind (jobSetForeground_settles (same.jobsKnown known) firstBetween found started.2)
          fun _ after _ sameAfter => rest after (same.trans sameAfter)
      refine Settles.bind ⟨status, state, polled, .refl state⟩ fun other between run same => ?_
      obtain ⟨rfl, rfl⟩ := Outcome.done.inj (polled.symm.trans run)
      refine Settles.ite (fun _ => ?_) fun _ => foreground state (.refl state)
      exact Settles.bind (jobQueueNotification_settles known first) fun _ after _ same => foreground after same

/-! ## The process that is waited for -/

/-- `waitpid` is interrupted some times, and then reports the wait status. -/
inductive Reaped (pid : Int) (stat : Nat) (untraced : Bool) : Nat → World → Prop where
  | now (fuel : Nat) (world : World) (reported : (System.waitpid pid false untraced world).1 = .ok (pid, stat)) :
      Reaped pid stat untraced (fuel + 1) world
  | interrupted (fuel : Nat) (world : World) (eintr : (System.waitpid pid false untraced world).1 = .error .eintr)
      (later : Reaped pid stat untraced fuel (System.waitpid pid false untraced world).2) :
      Reaped pid stat untraced (fuel + 1) world

/-- A child of the shell that is running, and what `waitpid` will say of it. -/
structure Awaits (state : Shell World) (serial : Nat) (pid : Int) (stat fuel : Nat) : Prop where
  process : ∃ proc, state.processes.find? (·.serial == serial) = some proc ∧
    state.processes.find? (·.pid == pid) = some proc ∧ proc.stopped = false ∧ proc.terminated = false
  positive : 0 < pid
  other : (System.getpid state.world).1 ≠ pid
  jobs : JobsKnown state
  reaped : Reaped pid stat (!state.child) fuel (System.getpid state.world).2

theorem waitpidLoop_reaped {pid : Int} {stat fuel : Nat} {untraced : Bool} {world : World}
    (reaped : Reaped pid stat untraced fuel world) (positive : 0 < pid) (state : Shell World)
    (here : state.world = world) :
    ∃ world', ∀ after, Leaf.run (updateJob pid stat) { state with world := world' } = .done () after →
      Leaf.run (waitpidLoop pid false untraced fuel) state = .done true after := by
  induction reaped generalizing state with
  | now fuel world reported =>
      subst here
      refine ⟨(System.waitpid pid false untraced state.world).2, fun after updated => ?_⟩
      have nonzero : (pid == 0) = false := by simp; omega
      have asserted : (pid == pid) = true := beq_self_eq_true pid
      rw [waitpidLoop, Leaf.run_call_bind, reported]
      simp only [nonzero, asserted, assertThat, Bool.false_eq_true, if_false, if_true, pure_bind]
      rw [Leaf.run_bind, updated]
      rfl
  | interrupted fuel world eintr later ih =>
      subst here
      obtain ⟨world', run⟩ := ih { state with world := (System.waitpid pid false untraced state.world).2 } rfl
      refine ⟨world', fun after updated => ?_⟩
      rw [waitpidLoop, Leaf.run_call_bind, eintr]
      exact run after updated

omit [System World] in
/-- The process has ended with the wait status, and the others are as before. -/
theorem updateProcess_run {state : Shell World} {serial : Nat} {pid : Int} {stat : Nat} {proc : Process}
    (bySerial : state.processes.find? (·.serial == serial) = some proc)
    (byPid : state.processes.find? (·.pid == pid) = some proc) (exited : wifexited stat = true)
    (jobs : JobsKnown state) :
    ∃ after, Leaf.run (updateProcess pid stat) state = .done () after ∧ JobsKnown after ∧
      after.processes.find? (·.serial == serial) = some { proc with terminated := true, stat } := by
  obtain rfl : proc.serial = serial := by simpa using List.find?_some bySerial
  let ended : Process → Process := fun other =>
    if other.serial = proc.serial then { other with terminated := true, stat } else other
  have serials : ∀ other, (ended other).serial = other.serial := by
    intro other
    by_cases chosen : other.serial = proc.serial <;> simp [ended, chosen]
  have lookup : ∀ number, (state.processes.map ended).find? (·.serial == number) =
      (state.processes.find? (·.serial == number)).map ended := by
    intro number
    rw [List.find?_map]
    congr 2
    funext other
    simp [serials]
  have polled : ∀ other, (processPoll other).isSome → (processPoll (ended other)).isSome := by
    intro other poll
    by_cases chosen : other.serial = proc.serial
    · simp only [ended, chosen, if_true, processPoll, exited, Bool.not_true]
      split <;> rfl
    · simpa [ended, chosen] using poll
  refine ⟨{ state with processes := state.processes.map ended }, ?_, ?_, ?_⟩
  · rw [updateProcess, Leaf.run_gets_bind, byPid]
    simp only [exited, Bool.true_or, if_true]
    rfl
  · intro job member number listed
    obtain ⟨other, found, poll⟩ := jobs job member number listed
    exact ⟨ended other, by rw [lookup, found]; rfl, polled other poll⟩
  · rw [lookup, bySerial]
    simp [ended]

theorem updateJob_run {state : Shell World} {serial : Nat} {pid : Int} {stat : Nat} {proc : Process}
    (bySerial : state.processes.find? (·.serial == serial) = some proc)
    (byPid : state.processes.find? (·.pid == pid) = some proc) (exited : wifexited stat = true)
    (jobs : JobsKnown state) :
    ∃ after, Leaf.run (updateJob pid stat) state = .done () after ∧
      after.processes.find? (·.serial == serial) = some { proc with terminated := true, stat } := by
  obtain ⟨between, updated, known, found⟩ := updateProcess_run bySerial byPid exited jobs
  obtain ⟨_, after, run, same⟩ := updateJobs_settles (between.jobs.map (·.serial)) known fun _ member => member
  rw [updateJob, Leaf.run_bind_of_done updated, Leaf.run_gets_bind]
  by_cases control : between.jobControl = true
  · rw [if_pos control]
    exact ⟨after, run, by rw [same.1]; exact found⟩
  · rw [if_neg control]
    exact ⟨between, rfl, found⟩

theorem jobWaitProcess_reaped {state : Shell World} {serial : Nat} {pid : Int} {stat fuel : Nat}
    (awaits : Awaits state serial pid stat (fuel + 1)) (exited : wifexited stat = true) :
    ∃ after, Leaf.run (jobWaitProcess serial (fuel + 2)) state = .done (wexitstatus stat) after := by
  obtain ⟨proc, bySerial, byPid, running, alive⟩ := awaits.process
  obtain rfl : proc.pid = pid := by simpa using List.find?_some byPid
  obtain ⟨world', waited⟩ := waitpidLoop_reaped awaits.reaped awaits.positive
    { state with world := (System.getpid state.world).2 } rfl
  obtain ⟨after, updated, found⟩ := @updateJob_run _ _ { state with world := world' } _ _ _ _ bySerial byPid exited
    awaits.jobs
  have waits : Leaf.run (jobWaitPid (fuel + 1) proc.pid false) state = .done true after := by
    have distinct : proc.pid ≠ (System.getpid state.world).1 := fun same => awaits.other same.symm
    have checked : (decide (0 < proc.pid) && proc.pid != (System.getpid state.world).1) = true := by
      simp [awaits.positive, distinct]
    rw [jobWaitPid, Leaf.run_call_bind, Leaf.run_bind, checked]
    exact waited after updated
  have polledFirst : processPoll proc = some taskStatusWait := by simp [processPoll, running, alive]
  have polledAgain : processPoll { proc with terminated := true, stat } = some (wexitstatus stat : Int) := by
    simp [processPoll, running, exited]
  have notWaiting : (wexitstatus stat : Int) ≠ taskStatusWait := by
    have nonneg : (0 : Int) ≤ wexitstatus stat := Int.natCast_nonneg _
    rw [taskStatusWait]
    omega
  refine ⟨after, ?_⟩
  simp [jobWaitProcess, findProcess, bySerial, polledFirst, waits, found, polledAgain, notWaiting]

end

end Mrsh
