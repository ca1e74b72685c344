import Mrsh.Shell.JobNumbers

namespace Mrsh

open Mrsh.Data

/-! # The jobs that a specification names

A job has a process group once `job_add_process` was called on it. The look-up by status finds only such jobs. The
look-ups by number and by text find any job, also that of the pipeline that does the look-up.
-/

def ByStatus (id : Str) : Prop := id = ['%', '%'] ∨ id = ['%', '+'] ∨ id = ['%', '-']

/-- The first job whose text matches, if the texts up to it can be made. -/
def firstByText (matches_ : Str → Bool) : List Job → Option Job
  | [] => none
  | job :: rest =>
      match mrshNodeFormat job.node with
      | none => none
      | some cmd => if matches_ cmd then some job else firstByText matches_ rest

/-- The job that a number or a text names. -/
def namedJob (jobs : List Job) : Str → Option Job
  | '%' :: c :: rest =>
      if c.isDigit then
        if (strtol 10 (c :: rest)).rest.isEmpty then jobs.find? (·.jobId == toInt32 (strtol 10 (c ::
          rest)).value) else none
      else firstByText (if c == '?' then isInfix rest else (c :: rest).isPrefixOf) jobs
  | _ => none

theorem firstByText_mem {matches_ : Str → Bool} {jobs : List Job} {job : Job}
    (found : firstByText matches_ jobs = some job) :
    job ∈ jobs := by
  induction jobs with
  | nil => cases found
  | cons first rest ih =>
      rw [firstByText] at found
      split at found
      · cases found
      · split at found
        · obtain rfl := Option.some.inj found
          exact List.mem_cons_self
        · exact List.mem_cons_of_mem _ (ih found)

theorem namedJob_mem {jobs : List Job} {id : Str} {job : Job} (named : namedJob jobs id = some job) : job ∈ jobs := by
  unfold namedJob at named
  split at named
  · split at named
    · split at named
      · exact List.mem_of_find?_eq_some named
      · cases named
    · exact firstByText_mem named
  · cases named

section

variable {World : Type}

/-! ## The look-ups -/

theorem jobsWithStatus_done {status : Int} {serials found : List Nat} {state after : Shell World}
    (ended : Leaf.run (jobsWithStatus status serials) state = .done found after) :
    after = state ∧ ∀ serial ∈ found, polled state serial = some status := by
  induction serials generalizing found after with
  | nil =>
      cases ended
      exact ⟨rfl, nofun⟩
  | cons serial serials ih =>
      obtain ⟨first, _, polls, rest⟩ := Leaf.run_bind_done.mp ended
      obtain ⟨isStatus, rfl⟩ := jobPoll_done polls
      obtain ⟨others, _, looks, returns⟩ := Leaf.run_bind_done.mp rest
      obtain ⟨rfl, listed⟩ := ih looks
      obtain ⟨rfl, rfl⟩ := Outcome.done.inj returns
      refine ⟨rfl, fun other member => ?_⟩
      split at member
      · rename_i same
        rcases List.mem_cons.mp member with rfl | member
        · rw [isStatus, of_decide_eq_true same]
        · exact listed other member
      · exact listed other member

theorem jobByText_done {matches_ : Str → Bool} {jobs : List Job} {serial : Nat} {state after : Shell World} :
    Leaf.run (jobByText matches_ jobs) state = .done (some serial) after ↔
      (∃ job, firstByText matches_ jobs = some job ∧ job.serial = serial) ∧ after = state := by
  induction jobs with
  | nil =>
      refine iff_of_false (fun ended => ?_) ?_
      · cases ended
      · rintro ⟨⟨job, found, -⟩, -⟩
        cases found
  | cons job jobs ih =>
      rw [jobByText, firstByText]
      cases mrshNodeFormat job.node with
      | none =>
          refine iff_of_false (fun ended => ?_) ?_
          · cases ended
          · rintro ⟨⟨job, found, -⟩, -⟩
            cases found
      | some cmd =>
          rw [orCrash_some, pure_bind]
          simp only
          cases matches_ cmd with
          | true =>
              constructor
              · intro ended
                cases ended
                exact ⟨⟨job, rfl, rfl⟩, rfl⟩
              · rintro ⟨⟨_, found, rfl⟩, rfl⟩
                cases found
                rfl
          | false => exact ih

variable [System World]

theorem noJob_none {interactive : Bool} {msg : Str} {serial : Nat} {state after : Shell World} :
    Leaf.run (noJob interactive msg) state ≠ .done (some serial) after := by
  cases interactive <;> exact nofun

theorem recentJob_done {interactive : Bool} {index serial : Nat} {msg : Str} {state after : Shell World}
    (ended : Leaf.run (recentJob interactive index msg) state = .done (some serial) after) :
    after = state ∧ (polled state serial = some taskStatusStopped ∨ polled state serial = some taskStatusWait) := by
  rw [recentJob, Leaf.run_gets_bind] at ended
  obtain ⟨stopped, _, looks, rest⟩ := Leaf.run_bind_done.mp ended
  obtain ⟨rfl, stoppedStatus⟩ := jobsWithStatus_done looks
  split at rest
  · rename_i first found
    obtain ⟨same, rfl⟩ := Outcome.done.inj rest
    obtain rfl := Option.some.inj same
    exact ⟨rfl, .inl (stoppedStatus first (List.mem_of_getElem? found))⟩
  · obtain ⟨running, _, looksAgain, restAgain⟩ := Leaf.run_bind_done.mp rest
    obtain ⟨rfl, runningStatus⟩ := jobsWithStatus_done looksAgain
    split at restAgain
    · rename_i first found
      obtain ⟨same, rfl⟩ := Outcome.done.inj restAgain
      obtain rfl := Option.some.inj same
      exact ⟨rfl, .inr (runningStatus first (List.mem_of_getElem? found))⟩
    · exact absurd restAgain noJob_none

theorem jobById_named {id : Str} (named : ¬ ByStatus id) {interactive : Bool} {serial : Nat}
    {state after : Shell World} :
    Leaf.run (jobById id interactive) state = .done (some serial) after ↔
      (∃ job, namedJob state.jobs id = some job ∧ job.serial = serial) ∧ after = state := by
  unfold jobById
  split
  · exact absurd (.inl rfl) named
  · exact absurd (.inr (.inl rfl)) named
  · exact absurd (.inr (.inr rfl)) named
  · rename_i c rest _ _ _
    rw [namedJob]
    by_cases digit : c.isDigit = true
    · rw [if_pos digit, if_pos digit, jobByNumber]
      cases complete : (strtol 10 (c :: rest)).rest.isEmpty with
      | false =>
          simp only [Bool.not_false, if_true]
          refine iff_of_false noJob_none ?_
          rintro ⟨⟨job, found, -⟩, -⟩
          cases found
      | true =>
          simp only [Bool.not_true, Bool.false_eq_true, if_false, if_true, Leaf.run_bind, Leaf.run_gets,
            Outcome.andThen_done]
          cases found : state.jobs.find? (·.jobId == toInt32 (strtol 10 (c :: rest)).value) with
          | none =>
              refine iff_of_false noJob_none ?_
              rintro ⟨⟨job, found, -⟩, -⟩
              cases found
          | some job =>
              constructor
              · intro ended
                cases ended
                exact ⟨⟨job, rfl, rfl⟩, rfl⟩
              · rintro ⟨⟨_, same, rfl⟩, rfl⟩
                cases same
                rfl
    · rw [if_neg digit, if_neg digit, Leaf.run_gets_bind, Leaf.run_bind_done]
      constructor
      · rintro ⟨found, between, looks, returns⟩
        cases found with
        | none => exact absurd returns noJob_none
        | some first =>
            cases returns
            exact jobByText_done.mp looks
      · intro holds
        exact ⟨some serial, _, jobByText_done.mpr holds, rfl⟩
  · rename_i other
    refine iff_of_false noJob_none ?_
    rintro ⟨⟨job, found, -⟩, -⟩
    unfold namedJob at found
    split at found
    · exact other _ _ rfl
    · cases found

/-! ## Process groups -/

/-- The calls on the table of the jobs, and the jobs that `job_add_process` was called on. -/
inductive JobHistory (start : Shell World) : List Nat → Shell World → Prop where
  | start : JobHistory start [] start
  | between {started : List Nat} {state after : Shell World} (reached : JobHistory start started state)
      (jobs : after.jobs.map Job.entry = state.jobs.map Job.entry)
      (processes : after.processes.map Process.entry = state.processes.map Process.entry)
      (serials : state.nextSerial ≤ after.nextSerial) : JobHistory start started after
  | jobCreate {started : List Nat} {state after : Shell World} {serial : Nat} (reached : JobHistory start started state)
      (node : JobNode) (ended : Leaf.run (jobCreate node) state = .done serial after) : JobHistory start started after
  | processCreate {started : List Nat} {state after : Shell World} {serial : Nat}
      (reached : JobHistory start started state) {pid : Int} (positive : 0 < pid)
      (ended : Leaf.run (processCreate pid) state = .done serial after) : JobHistory start started after
  | jobAddProcess {started : List Nat} {state after : Shell World} {serial proc : Nat}
      (reached : JobHistory start started state)
      (ended : Leaf.run (jobAddProcess serial proc) state = .done () after) : JobHistory start (serial :: started) after
  | jobDestroy {started : List Nat} {state after : Shell World} {serial : Nat}
      (reached : JobHistory start started state)
      (ended : Leaf.run (jobDestroy serial) state = .done () after) : JobHistory start started after

/-- The job has a process group, or has no process either. -/
def Job.Grouped (started : List Nat) (job : Job) : Prop :=
  if job.serial ∈ started then 0 < job.pgid else job.pgid ≤ 0 ∧ job.processes = []

structure GroupsFit (started : List Nat) (state : Shell World) : Prop where
  pids : ∀ proc ∈ state.processes, 0 < proc.pid
  groups : ∀ job ∈ state.jobs, job.Grouped started
  created : ∀ job ∈ state.jobs, job.serial < state.nextSerial
  startedCreated : ∀ serial ∈ started, serial < state.nextSerial

omit [System World] in
/-- What holds of the entries that are left of a table holds of the table. -/
theorem GroupsFit.of_entries {started : List Nat} {before after : Shell World} (fit : GroupsFit started before)
    (jobs : ∀ entry ∈ after.jobs.map Job.entry, entry ∈ before.jobs.map Job.entry)
    (processes : ∀ entry ∈ after.processes.map Process.entry, entry ∈ before.processes.map Process.entry)
    (serials : before.nextSerial ≤ after.nextSerial) : GroupsFit started after where
  pids proc member := by
    obtain ⟨old, had, same⟩ := List.mem_map.mp (processes _ (List.mem_map_of_mem member))
    have pid : old.entry.pid = proc.entry.pid := congrArg Process.pid same
    change 0 < proc.entry.pid
    rw [← pid]
    exact fit.pids old had
  groups job member := by
    obtain ⟨old, had, same⟩ := List.mem_map.mp (jobs _ (List.mem_map_of_mem member))
    have grouped : old.entry.Grouped started := fit.groups old had
    rw [same] at grouped
    exact grouped
  created job member := by
    obtain ⟨old, had, same⟩ := List.mem_map.mp (jobs _ (List.mem_map_of_mem member))
    have serial : old.entry.serial = job.entry.serial := congrArg Job.serial same
    change job.entry.serial < after.nextSerial
    rw [← serial]
    exact Nat.lt_of_lt_of_le (fit.created old had) serials
  startedCreated serial member := Nat.lt_of_lt_of_le (fit.startedCreated serial member) serials

/-- The process is put into the group, or was put into it before. -/
def joinsGroup (pid pgid : Int) (world : World) : Bool :=
  match (System.setpgid pid pgid world).1 with
  | .ok _ => true
  | .error errno => errno == .eperm

theorem jobAddProcess_done {serial proc : Nat} {state after : Shell World}
    (ended : Leaf.run (jobAddProcess serial proc) state = .done () after) :
    ∃ job process, state.jobs.find? (·.serial == serial) = some job ∧
      state.processes.find? (·.serial == proc) = some process ∧ after.processes = state.processes ∧
      after.nextSerial = state.nextSerial ∧
      after.jobs = state.jobs.map fun other =>
        if other.serial = serial then
          { other with
            pgid := if job.pgid ≤ 0 then process.pid else job.pgid
            processes := other.processes ++
              if joinsGroup process.pid (if job.pgid ≤ 0 then process.pid else job.pgid) state.world then [proc] else
              [] }
        else other := by
  obtain ⟨job, _, findsJob, finds⟩ := Leaf.run_bind_done.mp ended
  obtain ⟨foundJob, sameJob⟩ := findJob_done findsJob
  rw [sameJob] at finds
  obtain ⟨process, _, findsProcess, groups⟩ := Leaf.run_bind_done.mp finds
  obtain ⟨found, sameProcess⟩ := findProcess_done findsProcess
  have here : process.serial = proc := by simpa using List.find?_some found
  rw [sameProcess] at groups
  obtain ⟨_, grouped, sets, calls⟩ := Leaf.run_bind_done.mp groups
  cases sets
  refine ⟨job, process, foundJob, found, ?_⟩
  generalize isGroup : (if job.pgid ≤ 0 then process.pid else job.pgid) = pgid at calls ⊢
  obtain ⟨reply, asked, asks, rest⟩ := Leaf.run_bind_done.mp calls
  have replied : (System.setpgid process.pid pgid state.world).1 = reply := (Outcome.done.inj asks).1
  have askedJobs : asked.jobs =
      state.jobs.map fun other => if other.serial = serial then { other with pgid } else other := by
    cases asks
    rfl
  have askedProcesses : asked.processes = state.processes := by
    cases asks
    rfl
  have askedSerials : asked.nextSerial = state.nextSerial := by
    cases asks
    rfl
  have appends : Leaf.run
        (modifyJob serial fun job => { job with processes := job.processes ++ [process.serial] }) asked =
          .done () after → after.processes = state.processes ∧ after.nextSerial = state.nextSerial ∧
      after.jobs = state.jobs.map fun other =>
        if other.serial = serial then { other with pgid, processes := other.processes ++ [proc] } else other := by
    intro appended
    cases appended
    refine ⟨askedProcesses, askedSerials, ?_⟩
    change List.map _ asked.jobs = _
    rw [askedJobs, List.map_map]
    refine List.map_congr_left fun other _ => ?_
    by_cases same : other.serial = serial <;> simp [same, here]
  cases reply with
  | ok _ =>
      have joins : joinsGroup process.pid pgid state.world = true := by rw [joinsGroup, replied]
      simp only [joins, if_true]
      exact appends rest
  | error errno =>
      have joins : joinsGroup process.pid pgid state.world = (errno == .eperm) := by rw [joinsGroup, replied]
      simp only [joins]
      simp only at rest
      split at rest
      · rename_i permitted
        simp only [permitted, if_true]
        exact appends rest
      · rename_i denied
        cases rest
        refine ⟨askedProcesses, askedSerials, askedJobs.trans ?_⟩
        refine List.map_congr_left fun other _ => ?_
        simp [denied]

theorem GroupsFit.jobAddProcess {started : List Nat} {before after : Shell World} {serial proc : Nat}
    (fit : GroupsFit started before) (ended : Leaf.run (jobAddProcess serial proc) before = .done () after) :
    GroupsFit (serial :: started) after := by
  obtain ⟨job, process, foundJob, found, processes, serials, jobs⟩ := jobAddProcess_done ended
  have positive : 0 < (if job.pgid ≤ 0 then process.pid else job.pgid) := by
    split
    · exact fit.pids process (List.mem_of_find?_eq_some found)
    · omega
  refine ⟨processes ▸ fit.pids, fun other member => ?_, fun other member => ?_, fun other member => ?_⟩
  · rw [jobs] at member
    obtain ⟨old, had, rfl⟩ := List.mem_map.mp member
    by_cases here : old.serial = serial
    · rw [if_pos here, Job.Grouped, if_pos (here ▸ List.mem_cons_self)]
      exact positive
    · rw [if_neg here]
      have grouped := fit.groups old had
      unfold Job.Grouped at grouped ⊢
      simpa [here] using grouped
  · rw [jobs] at member
    obtain ⟨old, had, rfl⟩ := List.mem_map.mp member
    rw [serials]
    split
    · exact fit.created old had
    · exact fit.created old had
  · rw [serials]
    rcases List.mem_cons.mp member with rfl | member
    · have here : job.serial = other := by simpa using List.find?_some foundJob
      rw [← here]
      exact fit.created job (List.mem_of_find?_eq_some foundJob)
    · exact fit.startedCreated other member

omit [System World] in
theorem jobCreate_processes {node : JobNode} {serial : Nat} {state after : Shell World}
    (ended : Leaf.run (jobCreate node) state = .done serial after) : after.processes = state.processes := by
  obtain ⟨_, _, gets, asserts⟩ := Leaf.run_bind_done.mp ended
  cases gets
  obtain ⟨_, _, checks, creates⟩ := Leaf.run_bind_done.mp asserts
  obtain ⟨-, same⟩ := assertThat_done checks
  obtain ⟨_, _, created, copies⟩ := Leaf.run_bind_done.mp creates
  subst same
  cases created
  obtain ⟨_, _, copied, appends⟩ := Leaf.run_bind_done.mp copies
  obtain ⟨-, rfl⟩ := orCrash_done copied
  cases appends
  rfl

/-- In every history, the jobs that `job_add_process` was called on have a process group, and no other. -/
theorem JobHistory.groupsFit {start state : Shell World} {started : List Nat} (reached : JobHistory start started state)
    (noJobs : start.jobs = []) (noProcesses : start.processes = []) : GroupsFit started state := by
  induction reached with
  | start =>
      refine ⟨?_, ?_, ?_, nofun⟩
      · rw [noProcesses]
        exact nofun
      · rw [noJobs]
        exact nofun
      · rw [noJobs]
        exact nofun
  | between _ jobs processes serials ih =>
      refine ih.of_entries (fun entry member => ?_) (fun entry member => ?_) serials
      · rwa [← jobs]
      · rwa [← processes]
  | @jobCreate started state after serial _ node ended ih =>
      have processes := jobCreate_processes ended
      obtain ⟨-, rfl, serials, job, jobs, here, -, group, none⟩ := jobCreate_done ended
      refine ⟨?_, fun other member => ?_, fun other member => ?_, fun other member => ?_⟩
      · rw [processes]
        exact ih.pids
      · rw [jobs] at member
        rcases List.mem_append.mp member with old | new
        · exact ih.groups other old
        · obtain rfl := List.mem_singleton.mp new
          have fresh : other.serial ∉ started := fun among => Nat.lt_irrefl _ (here ▸ ih.startedCreated _ among)
          rw [Job.Grouped, if_neg fresh, group]
          exact ⟨by decide, none⟩
      · rw [jobs] at member
        rcases List.mem_append.mp member with old | new
        · rw [serials]
          exact Nat.lt_succ_of_lt (ih.created other old)
        · obtain rfl := List.mem_singleton.mp new
          rw [serials, here]
          exact Nat.lt_succ_self _
      · rw [serials]
        exact Nat.lt_succ_of_lt (ih.startedCreated other member)
  | processCreate _ positive ended ih =>
      cases ended
      refine ⟨fun proc member => ?_, ih.groups, fun job member => Nat.lt_succ_of_lt (ih.created job member),
        fun serial member => Nat.lt_succ_of_lt (ih.startedCreated serial member)⟩
      rcases List.mem_append.mp member with old | new
      · exact ih.pids proc old
      · obtain rfl := List.mem_singleton.mp new
        exact positive
  | jobAddProcess _ ended ih => exact ih.jobAddProcess ended
  | jobDestroy _ ended ih =>
      have gone := jobDestroy_done ended
      obtain ⟨_, _, _, processes⟩ := gone.processes
      refine ih.of_entries (fun entry member => ?_) (fun entry member => ?_) gone.serials.ge
      · rw [gone.jobs] at member
        exact (List.mem_filter.mp member).1
      · rw [processes] at member
        exact (List.mem_filter.mp member).1

/-! ## The assertion of fg and bg -/

/-- `job_by_id` gives `fg` and `bg` only a job with a process group. -/
def HandsGroup (state : Shell World) (id : Str) : Prop :=
  ∀ serial after, Leaf.run (jobById id true) state = .done (some serial) after → Registered after serial

omit [System World] in
/-- A job that is stopped or running has a process, and so a process group. -/
theorem GroupsFit.registered {started : List Nat} {state : Shell World} (fit : GroupsFit started state) {serial : Nat}
    {status : Int} (polls : polled state serial = some status) (active : status ≠ 0) : Registered state serial := by
  unfold polled at polls
  simp only [Option.bind_eq_bind, Option.bind_eq_some_iff] at polls
  obtain ⟨job, found, procs, listed, looped⟩ := polls
  refine ⟨job, found, ?_⟩
  have grouped := fit.groups job (List.mem_of_find?_eq_some found)
  unfold Job.Grouped at grouped
  split at grouped
  · exact grouped
  · rw [grouped.2] at listed
    cases listed
    cases looped
    exact absurd rfl active

/-- The job that is handed out has a process group exactly if the specification is one of those by status, or the job
that it names was given a process. -/
theorem jobById_group_iff {start state : Shell World} {started : List Nat} (noJobs : start.jobs = [])
    (noProcesses : start.processes = []) (reached : JobHistory start started state) (id : Str) :
    HandsGroup state id ↔ ByStatus id ∨ ∀ job, namedJob state.jobs id = some job → job.serial ∈ started := by
  have fit := reached.groupsFit noJobs noProcesses
  by_cases status : ByStatus id
  · refine iff_of_true ?_ (.inl status)
    have recent : ∀ {index serial : Nat} {msg : Str} {after : Shell World},
        Leaf.run (recentJob true index msg) state = .done (some serial) after → Registered after serial := by
      intro index serial msg after ended
      obtain ⟨rfl, stopped | running⟩ := recentJob_done ended
      · exact fit.registered stopped (by decide)
      · exact fit.registered running (by decide)
    rcases status with rfl | rfl | rfl
    · exact fun serial after ended => recent ended
    · exact fun serial after ended => recent ended
    · exact fun serial after ended => recent ended
  · rw [or_iff_right status]
    constructor
    · intro hands job named
      obtain ⟨other, found, group⟩ := hands job.serial state ((jobById_named status).mpr ⟨⟨job, named, rfl⟩, rfl⟩)
      have same : other.serial = job.serial := by simpa using List.find?_some found
      have grouped := fit.groups other (List.mem_of_find?_eq_some found)
      by_contra without
      rw [Job.Grouped, if_neg (same ▸ without)] at grouped
      omega
    · intro started serial after ended
      obtain ⟨⟨job, named, rfl⟩, rfl⟩ := (jobById_named status).mp ended
      have has : (after.jobs.find? (·.serial == job.serial)).isSome :=
        List.find?_isSome.mpr ⟨job, namedJob_mem named, by simp⟩
      obtain ⟨other, found⟩ := Option.isSome_iff_exists.mp has
      have same : other.serial = job.serial := by simpa using List.find?_some found
      have grouped := fit.groups other (List.mem_of_find?_eq_some found)
      rw [Job.Grouped, if_pos (same ▸ started job named)] at grouped
      exact ⟨other, found, grouped⟩

end

/-- The shell that runs a pipeline without a child, such as `fg %1`, has a job for it. -/
def ownJobShell : Shell Machine := (Leaf.run (jobCreate (.commandList (exitCommand []))) jobControlShell).state

theorem ownJobShell_history : JobHistory jobControlShell [] ownJobShell := by
  have created : (Leaf.run (jobCreate (.commandList (exitCommand [])))
    jobControlShell).value? = some 0 := by decide +kernel
  exact .jobCreate .start _ (Outcome.eq_done_of_value? created)

def forkedShell : Shell Machine := (Leaf.run (processCreate 5) ownJobShell).state

/-- The job has a process. -/
def startedJobShell : Shell Machine := (Leaf.run (jobAddProcess 0 1) forkedShell).state

theorem startedJobShell_steps : Leaf.run (processCreate 5) ownJobShell = .done 1 forkedShell ∧
    Leaf.run (jobAddProcess 0 1) forkedShell = .done () startedJobShell :=
  ⟨Outcome.eq_done_of_value? (by decide +kernel), Outcome.eq_done_of_value? (by decide +kernel)⟩

theorem startedJobShell_history : JobHistory jobControlShell [0] startedJobShell :=
  .jobAddProcess (.processCreate ownJobShell_history (by decide) startedJobShell_steps.1) startedJobShell_steps.2

/-- The specification `%1` names a job that has a process. -/
theorem jobById_group_iff_started : ∃ after,
    Leaf.run (jobById "%1".toList true) startedJobShell = .done (some 0) after ∧ Registered after 0 := by
  have found : (Leaf.run (jobById "%1".toList true) startedJobShell).value? = some (some 0) := by decide +kernel
  have named : (namedJob startedJobShell.jobs "%1".toList).map (·.serial) = some 0 := by decide +kernel
  refine ⟨_, Outcome.eq_done_of_value? found, (jobById_group_iff rfl rfl startedJobShell_history "%1".toList).mpr
    (.inr fun job isNamed => ?_) 0 _ (Outcome.eq_done_of_value? found)⟩
  rw [isNamed] at named
  exact List.mem_singleton.mpr (Option.some.inj named)

/-- The specification `%1` names the job of the pipeline that looks it up, and the assertion of `fg` fails. -/
theorem jobById_ownJob :
    (¬ ∀ (start state : Shell Machine) (started : List Nat), start.jobs = [] → start.processes = [] →
      JobHistory start started state → ∀ id, HandsGroup state id) ∧
    ∃ state, JobHistory jobControlShell [] state ∧
      ∃ after, Leaf.run (builtinFg 5 ["fg".toList, "%1".toList]) state = .stopped .aborted after := by
  have found : (Leaf.run (jobById "%1".toList true) ownJobShell).value? = some (some 0) := by decide +kernel
  constructor
  · intro always
    obtain ⟨job, listed, group⟩ := always _ _ _ rfl rfl ownJobShell_history "%1".toList 0 _
      (Outcome.eq_done_of_value? found)
    have kept : (Leaf.run (jobById "%1".toList true) ownJobShell).state.jobs.all (·.pgid ≤ 0)
      = true := by decide +kernel
    have without := of_decide_eq_true (List.all_eq_true.mp kept job (List.mem_of_find?_eq_some listed))
    omega
  · refine ⟨ownJobShell, ownJobShell_history, ?_⟩
    have aborts : (Leaf.run (builtinFg 5 ["fg".toList, "%1".toList]) ownJobShell).reason? = some .aborted := by
      decide +kernel
    exact ⟨_, Outcome.eq_stopped_of_reason? aborts⟩

end Mrsh
