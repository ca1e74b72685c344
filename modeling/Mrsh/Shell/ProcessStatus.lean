import Mrsh.Shell.JobEntries
import Mrsh.Shell.ForegroundJob

namespace Mrsh

open Mrsh.Data

/-! # The status of a process

A process is stopped any number of times and continued in between, and ends once. Two flags of its entry tell the
three states apart. A status that ends the process does not clear the flag of a stop.
-/

/-- What happens to the entry of a process. -/
inductive ProcessEvent where
  | status (stat : Nat)
  | continued

def terminates (stat : Nat) : Bool := wifexited stat || wifsignaled stat

def exitStatus (stat : Nat) : Int := if wifexited stat then wexitstatus stat else 129

/-- Stops, and at last at most one status that ends the process. Continuations come anywhere. -/
def Waitable : List ProcessEvent → Prop
  | [] => True
  | .continued :: rest => Waitable rest
  | .status stat :: rest =>
      wifstopped stat = true ∧ Waitable rest ∨ terminates stat = true ∧ ∀ event ∈ rest, event = .continued

def Terminated (events : List ProcessEvent) : Prop := ∃ stat, .status stat ∈ events ∧ terminates stat = true

/-- The last stop is not followed by a continuation. -/
def StopPending (events : List ProcessEvent) : Prop :=
  ∃ before stat rest, events = before ++ .status stat :: rest ∧ wifstopped stat = true ∧ .continued ∉ rest

/-- What `process_poll` is to return. -/
inductive ExpectedPoll (events : List ProcessEvent) : Int → Prop where
  | terminated {stat : Nat} (recorded : .status stat ∈ events) (ends : terminates stat = true) :
      ExpectedPoll events (exitStatus stat)
  | stopped (alive : ¬ Terminated events) (pending : StopPending events) : ExpectedPoll events taskStatusStopped
  | waiting (alive : ¬ Terminated events) (running : ¬ StopPending events) : ExpectedPoll events taskStatusWait

/-- The entry after the event. -/
def Process.record (proc : Process) : ProcessEvent → Process
  | .status stat =>
      if terminates stat then { proc with terminated := true, stat }
      else { proc with stopped := true, signal := wstopsig stat }
  | .continued => { proc with stopped := false }

theorem not_terminates {stat : Nat} (stops : wifstopped stat = true) : terminates stat = false := by
  unfold wifstopped at stops
  have low : stat % 256 = 127 := by simpa using stops
  have signal : wtermsig stat = 127 := by
    unfold wtermsig
    omega
  rw [terminates, wifexited, wifsignaled, signal]
  rfl

theorem Process.record_serial (proc : Process) (event : ProcessEvent) : (proc.record event).serial = proc.serial := by
  cases event with
  | status stat =>
      rw [Process.record]
      split <;> rfl
  | continued => rfl

/-! ## One more event -/

theorem Waitable.of_append {events : List ProcessEvent} {event : ProcessEvent}
    (waitable : Waitable (events ++ [event])) :
    Waitable events := by
  induction events with
  | nil => trivial
  | cons first rest ih =>
      cases first with
      | continued => exact ih waitable
      | status stat =>
          rcases waitable with ⟨stops, later⟩ | ⟨ends, later⟩
          · exact .inl ⟨stops, ih later⟩
          · exact .inr ⟨ends, fun other member => later other (List.mem_append_left _ member)⟩

theorem Waitable.status {events : List ProcessEvent} {stat : Nat} (waitable : Waitable (events ++ [.status stat])) :
    ¬ Terminated events ∧ (wifstopped stat = true ∨ terminates stat = true) := by
  induction events with
  | nil =>
      refine ⟨?_, ?_⟩
      · rintro ⟨_, member, -⟩
        exact absurd member List.not_mem_nil
      · exact waitable.imp (fun stops => stops.1) fun ends => ends.1
  | cons first rest ih =>
      cases first with
      | continued =>
          obtain ⟨alive, kind⟩ := ih waitable
          refine ⟨?_, kind⟩
          rintro ⟨other, member, ends⟩
          exact alive ⟨other, (List.mem_cons.mp member).resolve_left nofun, ends⟩
      | status other =>
          rcases waitable with ⟨stops, later⟩ | ⟨_, later⟩
          · obtain ⟨alive, kind⟩ := ih later
            refine ⟨?_, kind⟩
            rintro ⟨ended, member, ends⟩
            rcases List.mem_cons.mp member with same | member
            · cases same
              rw [not_terminates stops] at ends
              cases ends
            · exact alive ⟨ended, member, ends⟩
          · exact nomatch later (.status stat) (List.mem_append_right _ (List.mem_singleton.mpr rfl))

theorem terminated_append {events : List ProcessEvent} {event : ProcessEvent} :
    Terminated (events ++ [event]) ↔
      Terminated events ∨ ∃ stat, event = .status stat ∧ terminates stat = true := by
  constructor
  · rintro ⟨stat, member, ends⟩
    rcases List.mem_append.mp member with member | last
    · exact .inl ⟨stat, member, ends⟩
    · exact .inr ⟨stat, (List.mem_singleton.mp last).symm, ends⟩
  · rintro (⟨stat, member, ends⟩ | ⟨stat, rfl, ends⟩)
    · exact ⟨stat, List.mem_append_left _ member, ends⟩
    · exact ⟨stat, List.mem_append_right _ (List.mem_singleton.mpr rfl), ends⟩

theorem stopPending_continued (events : List ProcessEvent) : ¬ StopPending (events ++ [.continued]) := by
  rintro ⟨before, stat, rest, same, -, without⟩
  rcases List.eq_nil_or_concat rest with rfl | ⟨init, last, rfl⟩
  · obtain ⟨-, ends⟩ := List.append_inj' same rfl
    cases ends
  · rw [List.concat_eq_append] at same without
    rw [← List.cons_append, ← List.append_assoc] at same
    obtain ⟨-, ends⟩ := List.append_inj' same rfl
    cases ends
    exact without (List.mem_append_right _ (List.mem_singleton.mpr rfl))

theorem stopPending_status {events : List ProcessEvent} {stat : Nat} :
    StopPending (events ++ [.status stat]) ↔ wifstopped stat = true ∨ StopPending events := by
  constructor
  · rintro ⟨before, other, rest, same, stops, without⟩
    rcases List.eq_nil_or_concat rest with rfl | ⟨init, last, rfl⟩
    · obtain ⟨-, ends⟩ := List.append_inj' same rfl
      cases ends
      exact .inl stops
    · rw [List.concat_eq_append] at same without
      rw [← List.cons_append, ← List.append_assoc] at same
      obtain ⟨rfl, -⟩ := List.append_inj' same rfl
      exact .inr ⟨before, other, init, rfl, stops, fun member => without (List.mem_append_left _ member)⟩
  · rintro (stops | ⟨before, other, rest, rfl, stops, without⟩)
    · exact ⟨events, stat, [], rfl, stops, List.not_mem_nil⟩
    · refine ⟨before, other, rest ++ [.status stat], by simp, stops, fun member => ?_⟩
      rcases List.mem_append.mp member with member | last
      · exact without member
      · cases List.mem_singleton.mp last

/-- What the flags of the entry say of the events. -/
structure Process.Shows (proc : Process) (events : List ProcessEvent) : Prop where
  stopped : proc.stopped = true ↔ StopPending events
  terminated : proc.terminated = true ↔ Terminated events
  stat : ∀ stat, .status stat ∈ events → terminates stat = true → proc.stat = stat

theorem Process.Shows.record {proc : Process} {events : List ProcessEvent} {event : ProcessEvent}
    (shows : proc.Shows events) (waitable : Waitable (events ++ [event])) :
    (proc.record event).Shows (events ++ [event]) := by
  cases event with
  | continued =>
      refine ⟨iff_of_false nofun (stopPending_continued events), ?_, fun stat member ends => ?_⟩
      · rw [terminated_append]
        exact shows.terminated.trans (or_iff_left nofun).symm
      · exact shows.stat stat ((List.mem_append.mp member).resolve_right fun last =>
          nomatch List.mem_singleton.mp last) ends
  | status stat =>
      obtain ⟨alive, kind⟩ := waitable.status
      have onlyThis : ∀ other, .status other ∈ events ++ [.status stat] →
          terminates other = true → stat = other := by
        intro other member ends
        rcases List.mem_append.mp member with member | last
        · exact absurd ⟨other, member, ends⟩ alive
        · cases List.mem_singleton.mp last
          rfl
      cases ends : terminates stat with
      | true =>
          rw [Process.record, if_pos ends]
          refine ⟨?_, iff_of_true rfl ?_, onlyThis⟩
          · rw [stopPending_status, or_iff_right]
            · exact shows.stopped
            · intro stops
              rw [not_terminates stops] at ends
              cases ends
          · exact terminated_append.mpr (.inr ⟨stat, rfl, ends⟩)
      | false =>
          have stops : wifstopped stat = true := kind.resolve_right fun other => by rw [ends] at other; cases other
          rw [Process.record, if_neg (by rw [ends]; exact Bool.false_ne_true)]
          refine ⟨iff_of_true rfl (stopPending_status.mpr (.inl stops)), ?_, fun other member ended => ?_⟩
          · rw [terminated_append]
            refine shows.terminated.trans (or_iff_left ?_).symm
            rintro ⟨other, same, ended⟩
            cases same
            rw [ends] at ended
            cases ended
          · have same := onlyThis other member ended
            rw [← same, ends] at ended
            cases ended

theorem processPoll_terminated {proc : Process} (running : proc.stopped = false) (ended : proc.terminated = true)
    (ends : terminates proc.stat = true) : processPoll proc = some (exitStatus proc.stat) := by
  rw [processPoll, running, ended, exitStatus]
  cases exited : wifexited proc.stat with
  | true => rfl
  | false =>
      have signaled : wifsignaled proc.stat = true := by
        rw [terminates, exited, Bool.false_or] at ends
        exact ends
      simp [signaled]

/-- The flags show the expected status unless the process has ended while it was stopped. -/
theorem Process.Shows.polls_iff {proc : Process} {events : List ProcessEvent} (shows : proc.Shows events) :
    (∃ status, processPoll proc = some status ∧ ExpectedPoll events status)
      ↔ ¬ Terminated events ∨ ¬ StopPending events := by
  unfold processPoll
  by_cases pending : StopPending events
  · rw [if_pos (shows.stopped.mpr pending), or_iff_left (not_not.mpr pending)]
    constructor
    · rintro ⟨status, polls, expected⟩ ended
      obtain rfl := Option.some.inj polls
      have negative : taskStatusStopped < 0 := by decide
      generalize taskStatusStopped = polled at expected negative
      cases expected with
      | terminated recorded ends =>
          unfold exitStatus at negative
          split at negative <;> omega
      | stopped alive => exact alive ended
      | waiting alive => exact alive ended
    · exact fun alive => ⟨_, rfl, .stopped alive pending⟩
  · have running : ¬ proc.stopped = true := fun stopped => pending (shows.stopped.mp stopped)
    rw [if_neg running]
    refine iff_of_true ?_ (.inr pending)
    by_cases ended : Terminated events
    · have flag := shows.terminated.mpr ended
      obtain ⟨stat, recorded, ends⟩ := ended
      have same := shows.stat stat recorded ends
      refine ⟨exitStatus stat, ?_, .terminated recorded ends⟩
      rw [← same] at ends ⊢
      have polls := processPoll_terminated (by simpa using running) flag ends
      rwa [processPoll, if_neg running] at polls
    · have flag : proc.terminated = false := by
        cases terminated : proc.terminated with
        | false => rfl
        | true => exact absurd (shows.terminated.mp terminated) ended
      rw [flag]
      exact ⟨taskStatusWait, rfl, .waiting ended pending⟩

/-! ## The entry in the table -/

section

variable {World : Type}

/-- The entry of a process. -/
def entryOf (state : Shell World) (serial : Nat) : Option Process := state.processes.find? (·.serial == serial)

theorem find_map_serial {processes : List Process} {change : Process → Process}
    (keeps : ∀ proc, (change proc).serial = proc.serial) (serial : Nat) :
    (processes.map change).find? (·.serial == serial) = (processes.find? (·.serial == serial)).map change := by
  rw [List.find?_map]
  have same : ((fun proc : Process => proc.serial == serial) ∘ change) = fun proc => proc.serial == serial := by
    funext proc
    rw [Function.comp_apply, keeps]
  rw [same]

theorem updateProcess_done {pid : Int} {stat : Nat} {state after : Shell World}
    (ended : Leaf.run (updateProcess pid stat) state = .done () after) :
    after.processes = match state.processes.find? (·.pid == pid) with
      | none => state.processes
      | some first => state.processes.map fun proc => if proc.serial = first.serial then proc.record (.status stat)
        else proc := by
  rw [updateProcess, Leaf.run_gets_bind] at ended
  cases found : state.processes.find? (·.pid == pid) with
  | none =>
      rw [found] at ended
      cases ended
      rfl
  | some first =>
      rw [found] at ended
      simp only at ended
      unfold Process.record
      by_cases ends : terminates stat = true
      · rw [terminates] at ends
        rw [if_pos ends] at ended
        cases ended
        simp only [terminates, ends, if_true]
        rfl
      · have continues : ¬ (wifexited stat || wifsignaled stat) = true := ends
        rw [if_neg continues] at ended
        split at ended
        · cases ended
          simp only [if_neg ends]
          rfl
        · cases ended

theorem updateProcess_find {pid : Int} {stat : Nat} {state after : Shell World} {first : Process} (serial : Nat)
    (found : state.processes.find? (·.pid == pid) = some first)
    (ended : Leaf.run (updateProcess pid stat) state = .done () after) :
    entryOf after serial =
      (entryOf state serial).map fun proc => if serial = first.serial then proc.record (.status stat) else proc := by
  have processes := updateProcess_done ended
  rw [found] at processes
  have keeps : ∀ proc : Process,
      (if proc.serial = first.serial then proc.record (.status stat) else proc).serial = proc.serial := by
    intro proc
    split
    · exact Process.record_serial proc _
    · rfl
  rw [entryOf, processes, find_map_serial keeps, entryOf]
  cases entry : state.processes.find? (·.serial == serial) with
  | none => rfl
  | some proc =>
      have here : proc.serial = serial := by simpa using List.find?_some entry
      rw [Option.map_some, Option.map_some, here]

theorem updateProcess_entry {pid : Int} {stat serial : Nat} {state after : Shell World}
    (addressed : (state.processes.find? (·.pid == pid)).map (·.serial) = some serial)
    (ended : Leaf.run (updateProcess pid stat) state = .done () after) :
    entryOf after serial = (entryOf state serial).map (·.record (.status stat)) := by
  obtain ⟨first, found, here⟩ := Option.map_eq_some_iff.mp addressed
  rw [updateProcess_find serial found ended]
  simp only [here, if_true]

variable [System World]

def ProcessesKept (before after : Shell World) : Prop := after.processes = before.processes

instance : Std.Refl (ProcessesKept : Shell World → Shell World → Prop) := ⟨fun _ => rfl⟩

instance : IsTrans (Shell World) ProcessesKept := ⟨fun _ _ _ first second => second.trans first⟩

/-- A stopped job that is continued has processes that are not stopped. -/
theorem jobSetForeground_continued {serial : Nat} {foreground : Bool} {state after : Shell World}
    (stopped : polled state serial = some taskStatusStopped)
    (ended : Leaf.run (jobSetForeground serial foreground true) state = .done true after) :
    ∃ job, state.jobs.find? (·.serial == serial) = some job ∧
      after.processes = state.processes.map fun proc =>
        if proc.serial ∈ job.processes then proc.record .continued else proc := by
  obtain ⟨job, _, finds, asserts⟩ := Leaf.run_bind_done.mp ended
  obtain ⟨found, sameFound⟩ := findJob_done finds
  rw [sameFound] at asserts
  obtain ⟨_, _, checks, asks⟩ := Leaf.run_bind_done.mp asserts
  obtain ⟨-, sameChecked⟩ := assertThat_done checks
  rw [sameChecked, Leaf.run_gets_bind] at asks
  refine ⟨job, found, ?_⟩
  split at asks
  · obtain ⟨status, _, polls, moves⟩ := Leaf.run_bind_done.mp asks
    obtain ⟨isStatus, samePolled⟩ := jobPoll_done polls
    obtain rfl := Option.some.inj (isStatus.symm.trans stopped)
    rw [samePolled] at moves
    have background : Within ProcessesKept (jobToBackground job : Leaf World Unit) :=
      fun before => Lowers.processes (jobToBackground_lowers job before)
    have foregrounds : ∀ cont, Within ProcessesKept (jobToForeground job cont : Leaf World Unit) := by
      intro cont
      have sets : Within ProcessesKept (setForegroundJob (some job.serial) : Leaf World Unit) := .update fun _ => rfl
      refine .bind (.gets _) fun _ => .ite (.pure _) (.bind (.assertThat _) fun _ => .bind (.call fun _ =>
        rfl) fun _ => ?_)
      exact .ite (.bind (.call fun _ => rfl) fun _ => sets) sets
    split at moves <;> obtain ⟨_, between, moved, continued⟩ := Leaf.run_bind_done.mp moves
    case' isTrue => have same : between.processes = state.processes := (foregrounds _).done moved
    case' isFalse => have same : between.processes = state.processes := background.done moved
    all_goals
      rw [Bool.true_and, beq_self_eq_true, if_pos rfl] at continued
      obtain ⟨reply, _, kills, rest⟩ := Leaf.run_bind_done.mp continued
      cases kills
      split at rest
      · obtain ⟨_, _, -, returns⟩ := Leaf.run_bind_done.mp rest
        cases returns
      · obtain ⟨_, _, clears, notifies⟩ := Leaf.run_bind_done.mp rest
        cases clears
        obtain ⟨_, last, queues, returns⟩ := Leaf.run_bind_done.mp notifies
        cases returns
        have kept := (Run.Respects.done (jobQueueNotification_lowers serial) queues).processes
        rw [kept, ← same]
        rfl
  · cases asks

/-! ## Histories -/

/-- What the shell did with the entry of a process. -/
inductive ProcessHistory (serial : Nat) : List ProcessEvent → Shell World → Prop where
  | created {state after : Shell World} {pid : Int} (fresh : ∀ proc ∈ state.processes, proc.serial < state.nextSerial)
      (ended : Leaf.run (processCreate pid) state = .done serial after) : ProcessHistory serial [] after
  | recorded {events : List ProcessEvent} {state after : Shell World} {pid : Int} {stat : Nat}
      (reached : ProcessHistory serial events state)
      (addressed : (state.processes.find? (·.pid == pid)).map (·.serial) = some serial)
      (ended : Leaf.run (updateProcess pid stat) state = .done () after) :
      ProcessHistory serial (events ++ [.status stat]) after
  | continued {events : List ProcessEvent} {state after : Shell World} {job : Job} {foreground : Bool}
      (reached : ProcessHistory serial events state) (listed : state.jobs.find? (·.serial == job.serial) = some job)
      (member : serial ∈ job.processes) (stopped : polled state job.serial = some taskStatusStopped)
      (ended : Leaf.run (jobSetForeground job.serial foreground true) state = .done true after) :
      ProcessHistory serial (events ++ [.continued]) after
  | elsewhere {events : List ProcessEvent} {state after : Shell World} (reached : ProcessHistory serial events state)
      (same : entryOf after serial = entryOf state serial) : ProcessHistory serial events after

theorem ProcessHistory.shows {serial : Nat} {events : List ProcessEvent} {state : Shell World}
    (history : ProcessHistory serial events state) (waitable : Waitable events) :
    ∃ proc, entryOf state serial = some proc ∧ proc.Shows events := by
  induction history with
  | @created state after pid fresh ended =>
      cases ended
      have absent : state.processes.find? (·.serial == state.nextSerial) = none := by
        refine List.find?_eq_none.mpr fun proc member => ?_
        simpa using Nat.ne_of_lt (fresh proc member)
      have entry : ∀ proc : Process, proc.serial = state.nextSerial →
          (state.processes ++ [proc]).find? (·.serial == state.nextSerial) = some proc := by
        intro proc same
        rw [List.find?_append, absent, Option.none_or, List.find?_cons_of_pos (by simp [same])]
      refine ⟨_, entry _ rfl, ?_⟩
      refine ⟨iff_of_false Bool.false_ne_true ?_, iff_of_false Bool.false_ne_true ?_,
        fun _ member => absurd member List.not_mem_nil⟩
      · rintro ⟨before, stat, rest, same, -⟩
        exact absurd same.symm (List.append_ne_nil_of_right_ne_nil _ (List.cons_ne_nil _ _))
      · rintro ⟨stat, member, -⟩
        exact absurd member List.not_mem_nil
  | recorded _ addressed ended ih =>
      obtain ⟨proc, entry, shows⟩ := ih waitable.of_append
      refine ⟨_, ?_, shows.record waitable⟩
      rw [updateProcess_entry addressed ended, entry]
      rfl
  | @continued events state after job foreground _ listed member stopped ended ih =>
      obtain ⟨proc, entry, shows⟩ := ih waitable.of_append
      obtain ⟨found, isListed, processes⟩ := jobSetForeground_continued stopped ended
      obtain rfl := Option.some.inj (isListed.symm.trans listed)
      refine ⟨_, ?_, shows.record waitable⟩
      have here : proc.serial = serial := by simpa using List.find?_some entry
      have keeps : ∀ proc : Process, (if proc.serial ∈ found.processes then proc.record .continued else proc).serial =
          proc.serial := by
        intro proc
        split
        · exact Process.record_serial proc _
        · rfl
      rw [entryOf, processes, find_map_serial keeps]
      unfold entryOf at entry
      rw [entry, Option.map_some, here, if_pos member]
  | elsewhere _ same ih =>
      obtain ⟨proc, entry, shows⟩ := ih waitable
      exact ⟨proc, same.trans entry, shows⟩

/-! ## The status of a job -/

/-- The status of a job with the statuses of its processes. -/
def jobStatus (polls : List Int) (some : polls ≠ []) : Int :=
  if taskStatusWait ∈ polls then taskStatusWait
  else if taskStatusStopped ∈ polls then taskStatusStopped
  else polls.getLast some

omit [System World] in
theorem jobPollLoop_folds {procs : List Process} {polls : List Int} (polled : procs.mapM processPoll = some polls)
    (status : Int) (stopped : Bool) :
    jobPollLoop procs status stopped = some (if taskStatusWait ∈ polls then taskStatusWait
      else if stopped ∨ taskStatusStopped ∈ polls then taskStatusStopped else polls.getLast?.getD status) := by
  induction procs generalizing polls status stopped with
  | nil =>
      cases polled
      rw [jobPollLoop]
      simp
  | cons proc procs ih =>
      simp only [List.mapM_cons, Option.bind_eq_bind, Option.bind_eq_some_iff, Option.pure_def,
        Option.some.injEq] at polled
      obtain ⟨first, isFirst, others, rest, rfl⟩ := polled
      rw [jobPollLoop, isFirst, Option.bind_eq_bind, Option.bind_some]
      by_cases waits : first = taskStatusWait
      · rw [if_pos (by simpa using waits), if_pos (waits ▸ List.mem_cons_self)]
      · rw [if_neg (by simpa using waits), ih rest]
        have alike : taskStatusWait ∈ first :: others ↔ taskStatusWait ∈ others := by
          rw [List.mem_cons, or_iff_right (Ne.symm waits)]
        have either : (stopped || first == taskStatusStopped) = true ∨ taskStatusStopped ∈ others ↔
            stopped = true ∨ taskStatusStopped ∈ first :: others := by
          rw [Bool.or_eq_true, beq_iff_eq, List.mem_cons, or_assoc, eq_comm (a := first)]
        have last : others.getLast?.getD first = (first :: others).getLast?.getD status := by
          cases others with
          | nil => rfl
          | cons second others => rw [List.getLast?_cons_cons, List.getLast?_eq_getLast_of_ne_nil
            (List.cons_ne_nil _ _)]; rfl
        simp only [alike, either, last]

/-- The status of a job is folded over its processes. -/
def FoldsJobPoll (state : Shell World) : Prop :=
  ∀ serial job procs polls (some : polls ≠ []), state.jobs.find? (·.serial == serial) = .some job →
    job.processes.mapM (entryOf state) = .some procs → procs.mapM processPoll = .some polls →
    polled state serial = .some (jobStatus polls some)

omit [System World] in
theorem foldsJobPoll (state : Shell World) : FoldsJobPoll state := by
  intro serial job procs polls some found listed polls_eq
  have listedThere : (job.processes.mapM fun process => state.processes.find? (·.serial == process))
    = .some procs := listed
  rw [polled, found, Option.bind_eq_bind, Option.bind_some, listedThere, Option.bind_eq_bind, Option.bind_some,
    jobPollLoop_folds polls_eq, jobStatus]
  simp only [Bool.false_eq_true, false_or, List.getLast?_eq_getLast_of_ne_nil some, Option.getD_some]

/-- `process_poll` returns what is expected of the events. -/
def PollsExpected (state : Shell World) (serial : Nat) (events : List ProcessEvent) : Prop :=
  ∃ proc, entryOf state serial = some proc ∧ ∃ status, processPoll proc = some status ∧ ExpectedPoll events status

/-- The statuses of the process and of all jobs are right unless the process has ended while it was stopped, and
was not continued since. -/
theorem processPoll_expected_iff {serial : Nat} {events : List ProcessEvent} {state : Shell World}
    (history : ProcessHistory serial events state) (waitable : Waitable events) :
    PollsExpected state serial events ∧ FoldsJobPoll state ↔ ¬ Terminated events ∨ ¬ StopPending events := by
  obtain ⟨proc, entry, shows⟩ := history.shows waitable
  rw [and_iff_left (foldsJobPoll state), ← shows.polls_iff]
  constructor
  · rintro ⟨other, found, polls⟩
    obtain rfl := Option.some.inj (found.symm.trans entry)
    exact polls
  · exact fun polls => ⟨proc, entry, polls⟩

end

/-! ## A process killed while it is stopped -/

def createdShell : Shell Machine := (Leaf.run (processCreate 5) jobControlShell).state

theorem createdShell_history : ProcessHistory 0 [] createdShell := by
  have created : (Leaf.run (processCreate 5) jobControlShell).value? = some 0 := by decide +kernel
  exact .created (by decide +kernel) (Outcome.eq_done_of_value? created)

def stoppedShell : Shell Machine := (Leaf.run (updateProcess 5 (127 + 256 * 20)) createdShell).state

theorem stoppedShell_history : ProcessHistory 0 [.status (127 + 256 * 20)] stoppedShell := by
  have updated : (Leaf.run (updateProcess 5 (127 + 256 * 20)) createdShell).value? = some () := by decide +kernel
  exact .recorded createdShell_history (by decide +kernel) (Outcome.eq_done_of_value? updated)

def killedShell : Shell Machine := (Leaf.run (updateProcess 5 9) stoppedShell).state

theorem killedShell_history : ProcessHistory 0 [.status (127 + 256 * 20), .status 9] killedShell := by
  have updated : (Leaf.run (updateProcess 5 9) stoppedShell).value? = some () := by decide +kernel
  exact .recorded stoppedShell_history (by decide +kernel) (Outcome.eq_done_of_value? updated)

theorem processPoll_expected_stopped : PollsExpected stoppedShell 0 [.status
    (127 + 256 * 20)] ∧ FoldsJobPoll stoppedShell := by
  refine (processPoll_expected_iff stoppedShell_history (.inl ⟨rfl, trivial⟩)).mpr (.inl ?_)
  rintro ⟨stat, member, ends⟩
  cases List.mem_singleton.mp member
  cases ends

/-- A process that is killed while it is stopped stays stopped. -/
theorem processPoll_killedStopped :
    (¬ ∀ (serial : Nat) (events : List ProcessEvent) (state : Shell Machine), ProcessHistory serial events state →
      Waitable events → PollsExpected state serial events ∧ FoldsJobPoll state) ∧
    ∃ state : Shell Machine, ProcessHistory 0 [.status (127 + 256 * 20), .status 9] state ∧
      (entryOf state 0).bind processPoll = some taskStatusStopped := by
  have polled : (entryOf killedShell 0).bind processPoll = some taskStatusStopped := by decide +kernel
  constructor
  · intro always
    obtain ⟨⟨proc, entry, status, polls, expected⟩, -⟩ :=
      always _ _ _ killedShell_history (.inl ⟨rfl, .inr ⟨rfl, nofun⟩⟩)
    have ended : Terminated [.status (127 + 256 * 20), .status 9] :=
      ⟨9, List.mem_cons_of_mem _ List.mem_cons_self, rfl⟩
    rw [entry, Option.bind_some, polls] at polled
    obtain rfl := Option.some.inj polled
    generalize stopped : taskStatusStopped = status at expected
    cases expected with
    | terminated recorded ends =>
        unfold exitStatus taskStatusStopped at stopped
        split at stopped <;> omega
    | stopped alive => exact alive ended
    | waiting alive => exact alive ended
  · exact ⟨killedShell, killedShell_history, polled⟩

end Mrsh
