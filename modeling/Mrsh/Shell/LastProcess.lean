import Mrsh.Shell.Interpreter
import Mrsh.Shell.JobSpecifications

namespace Mrsh

open Mrsh.Data

/-! # The process of `$!`

The value is the last process of the last job that has processes. A process joins a job only with the `monitor` option,
and the jobs of foreground pipelines and of asynchronous lists are in one table.
-/

/-- A process that the shell started, and the job that it joined. -/
structure Start where
  proc : Nat
  pid : Int
  async : Bool
  job : Option Nat

/-- The process was the last one that joined its job, and no process joined a later job. The last start comes first. -/
def Leads (starts : List Start) (start : Start) : Prop :=
  ∃ since before job, starts = since ++ start :: before ∧ start.job = some job ∧
    (∀ later ∈ since, ∀ other, later.job = some other → other < job) ∧
    ∀ earlier ∈ before, ∀ other, earlier.job = some other → other ≤ job

section

variable {World : Type}

def pidOf (state : Shell World) (serial : Nat) : Option Int :=
  (state.processes.find? (·.serial == serial)).map (·.pid)

/-- The process ids that the entries have. -/
def Process.ids (proc : Process) : Nat × Int := (proc.serial, proc.pid)

/-- The processes that the jobs have. -/
def Job.members (job : Job) : Nat × List Nat := (job.serial, job.processes)

theorem pidOf_eq (state : Shell World) (serial : Nat) :
    pidOf state serial = ((state.processes.map Process.ids).find? (·.1 == serial)).map (·.2) := by
  rw [List.find?_map, Option.map_map]
  rfl

/-- The table of the jobs fits what was started. -/
structure StartsFit (starts : List Start) (state : Shell World) : Prop where
  order : (state.jobs.map Job.members).Pairwise fun earlier later => earlier.1 < later.1
  created : ∀ job ∈ state.jobs.map Job.members, job.1 < state.nextSerial
  fresh : ∀ ids ∈ state.processes.map Process.ids, ids.1 < state.nextSerial
  members : ∀ job ∈ state.jobs.map Job.members,
    job.2 = ((starts.filter (·.job == some job.1)).map Start.proc).reverse
  listed : ∀ start ∈ starts, ∀ job, start.job = some job → job ∈ (state.jobs.map Job.members).map Prod.fst
  entries : ∀ start ∈ starts, pidOf state start.proc = some start.pid

namespace StartsFit

variable {starts : List Start} {state after : Shell World}

theorem getLast (fit : StartsFit starts state) {job : Job} (member : job ∈ state.jobs) :
    job.processes.getLast? = (starts.find? (·.job == some job.serial)).map Start.proc := by
  have processes : job.processes = _ := fit.members job.members (List.mem_map_of_mem member)
  rw [processes, List.getLast?_reverse, List.head?_map, List.head?_filter]
  rfl

theorem jobs_order (fit : StartsFit starts state) :
    state.jobs.Pairwise fun earlier later => earlier.serial < later.serial := by
  have order := fit.order
  rw [List.pairwise_map] at order
  exact order

theorem lastJobProcess_iff (fit : StartsFit starts state) {proc : Nat} :
    lastJobProcess state.jobs = some proc ↔ ∃ start, start.proc = proc ∧ Leads starts start := by
  have order : state.jobs.reverse.Pairwise fun later earlier => earlier.serial < later.serial :=
    List.pairwise_reverse.mpr fit.jobs_order
  have among : ∀ job ∈ state.jobs.reverse, job ∈ state.jobs := fun job member => List.mem_reverse.mp member
  have find : ∀ start ∈ starts, ∀ serial, start.job = some serial → ∃ job ∈ state.jobs.reverse,
    job.serial = serial := by
    intro start member serial joined
    obtain ⟨ids, isMember, here⟩ := List.mem_map.mp (fit.listed start member serial joined)
    obtain ⟨job, listed, same⟩ := List.mem_map.mp isMember
    refine ⟨job, List.mem_reverse.mpr listed, ?_⟩
    rw [← here, ← same]
    rfl
  rw [lastJobProcess, List.findSome?_eq_some_iff]
  constructor
  · rintro ⟨later, job, earlier, split, isLast, without⟩
    have member : job ∈ state.jobs := among job (split ▸ List.mem_append_right _ List.mem_cons_self)
    rw [fit.getLast member, Option.map_eq_some_iff] at isLast
    obtain ⟨start, found, isProc⟩ := isLast
    obtain ⟨joined, since, before, startSplit, others⟩ := List.find?_eq_some_iff_append.mp found
    -- No process joined a later job, as these have none.
    have below : ∀ other ∈ starts, ∀ serial, other.job = some serial → serial ≤ job.serial := by
      intro other started serial joinedOther
      obtain ⟨otherJob, listed, here⟩ := find other started serial joinedOther
      rw [split] at listed order
      rcases List.mem_append.mp listed with isLater | notLater
      · have none := without otherJob isLater
        rw [fit.getLast (among otherJob (split ▸ List.mem_append_left _ isLater)), Option.map_eq_none_iff] at none
        have missing := List.find?_eq_none.mp none other started
        simp [joinedOther, here] at missing
      · rcases List.mem_cons.mp notLater with same | isEarlier
        · rw [← here, same]
        · rw [← here]
          exact Nat.le_of_lt ((List.pairwise_cons.mp (List.pairwise_append.mp order).2.1).1 otherJob isEarlier)
    refine ⟨start, isProc, since, before, job.serial, startSplit, by simpa using joined, ?_, ?_⟩
    · intro other isSince serial joinedOther
      refine Nat.lt_of_le_of_ne (below other (startSplit ▸ List.mem_append_left _ isSince) serial joinedOther) ?_
      rintro rfl
      have different := others other isSince
      simp [joinedOther] at different
    · intro other isBefore serial joinedOther
      exact below other (startSplit ▸ List.mem_append_right _ (List.mem_cons_of_mem _ isBefore)) serial joinedOther
  · rintro ⟨start, isProc, since, before, serial, startSplit, joined, laterBelow, earlierBelow⟩
    have started : start ∈ starts := startSplit ▸ List.mem_append_right _ List.mem_cons_self
    obtain ⟨job, listed, here⟩ := find start started serial joined
    obtain ⟨later, earlier, split⟩ := List.append_of_mem listed
    refine ⟨later, job, earlier, split, ?_, fun otherJob isLater => ?_⟩
    · have found : starts.find? (·.job == some job.serial) = some start := by
        refine List.find?_eq_some_iff_append.mpr ⟨by simp [joined, here], since, before, startSplit,
          fun other isSince => ?_⟩
        cases joinedOther : other.job with
        | none => rfl
        | some otherSerial =>
            have less := laterBelow other isSince otherSerial joinedOther
            have different : otherSerial ≠ job.serial := by omega
            simpa using different
      rw [fit.getLast (among job listed), found, Option.map_some, isProc]
    · rw [split] at order
      have larger : job.serial < otherJob.serial :=
        (List.pairwise_append.mp order).2.2 otherJob isLater job List.mem_cons_self
      rw [fit.getLast (among otherJob (split ▸ List.mem_append_left _ isLater)), Option.map_eq_none_iff]
      refine List.find?_eq_none.mpr fun other startedOther joinedOther => ?_
      have joinedLater : other.job = some otherJob.serial := by simpa using joinedOther
      rw [startSplit] at startedOther
      rcases List.mem_append.mp startedOther with isSince | notSince
      · have less := laterBelow other isSince _ joinedLater
        omega
      · rcases List.mem_cons.mp notSince with rfl | isBefore
        · have same := Option.some.inj (joinedLater.symm.trans joined)
          omega
        · have less := earlierBelow other isBefore _ joinedLater
          omega

theorem keep (fit : StartsFit starts state) (jobs : after.jobs.map Job.members = state.jobs.map Job.members)
    (processes : after.processes.map Process.ids = state.processes.map Process.ids)
    (serials : state.nextSerial ≤ after.nextSerial) : StartsFit starts after where
  order := jobs ▸ fit.order
  created job member := Nat.lt_of_lt_of_le (fit.created job (jobs ▸ member)) serials
  fresh ids member := Nat.lt_of_lt_of_le (fit.fresh ids (processes ▸ member)) serials
  members := jobs ▸ fit.members
  listed := jobs ▸ fit.listed
  entries start member := by
    rw [pidOf_eq, processes, ← pidOf_eq]
    exact fit.entries start member

theorem createJob (fit : StartsFit starts state) {node : JobNode} {serial : Nat}
    (ended : Leaf.run (jobCreate node) state = .done serial after) : StartsFit starts after := by
  obtain ⟨-, rfl, serials, job, jobs, here, -, -, none⟩ := jobCreate_done ended
  have processes := jobCreate_processes ended
  have membersAfter : after.jobs.map Job.members = state.jobs.map Job.members ++ [(state.nextSerial, [])] := by
    rw [jobs, List.map_append, List.map_cons, Job.members, here, none]
    rfl
  have absent : ∀ start ∈ starts, start.job ≠ some state.nextSerial := by
    intro start member joined
    obtain ⟨ids, listed, same⟩ := List.mem_map.mp (fit.listed start member _ joined)
    exact Nat.ne_of_lt (fit.created ids listed) same
  constructor
  · rw [membersAfter]
    refine List.pairwise_append.mpr ⟨fit.order, List.pairwise_singleton _ _, fun old member new single => ?_⟩
    rw [List.mem_singleton.mp single]
    exact fit.created old member
  · intro old member
    rw [membersAfter] at member
    rw [serials]
    rcases List.mem_append.mp member with member | single
    · exact Nat.lt_succ_of_lt (fit.created old member)
    · rw [List.mem_singleton.mp single]
      exact Nat.lt_succ_self _
  · rw [processes, serials]
    exact fun ids member => Nat.lt_succ_of_lt (fit.fresh ids member)
  · intro old member
    rw [membersAfter] at member
    rcases List.mem_append.mp member with member | single
    · exact fit.members old member
    · rw [List.mem_singleton.mp single]
      have filtered : starts.filter (·.job == some state.nextSerial) = [] := by
        refine List.filter_eq_nil_iff.mpr fun start started => ?_
        simpa using absent start started
      rw [filtered]
      rfl
  · intro start member other joined
    rw [membersAfter, List.map_append]
    exact List.mem_append_left _ (fit.listed start member other joined)
  · intro start member
    rw [pidOf, processes]
    exact fit.entries start member

theorem createProcess (fit : StartsFit starts state) {pid : Int} {serial : Nat}
    (ended : Leaf.run (processCreate pid) state = .done serial after) :
    StartsFit starts after ∧ pidOf after serial = some pid := by
  cases ended
  have absent : state.processes.find? (·.serial == state.nextSerial) = none := by
    refine List.find?_eq_none.mpr fun proc member => ?_
    have less : proc.serial < state.nextSerial := fit.fresh proc.ids (List.mem_map_of_mem member)
    simpa using Nat.ne_of_lt less
  refine ⟨⟨fit.order, fun job member => Nat.lt_succ_of_lt (fit.created job member), ?_, fit.members, fit.listed, ?_⟩,
    ?_⟩
  · intro ids member
    change ids ∈ List.map Process.ids (state.processes ++ _) at member
    rw [List.map_append] at member
    rcases List.mem_append.mp member with member | single
    · exact Nat.lt_succ_of_lt (fit.fresh ids member)
    · rw [List.mem_singleton.mp single]
      exact Nat.lt_succ_self _
  · intro start member
    have entry := fit.entries start member
    unfold pidOf at entry ⊢
    obtain ⟨proc, found, pid⟩ := Option.map_eq_some_iff.mp entry
    change ((state.processes ++ _).find? _).map _ = _
    rw [List.find?_append, found, Option.some_or, Option.map_some, pid]
  · unfold pidOf
    change ((state.processes ++ _).find? (·.serial == state.nextSerial)).map _ = _
    have last : ∀ proc : Process, proc.serial = state.nextSerial →
        [proc].find? (·.serial == state.nextSerial) = some proc :=
      fun proc same => List.find?_cons_of_pos (by simpa using same)
    rw [List.find?_append, absent, Option.none_or, last _ rfl, Option.map_some]

theorem join (fit : StartsFit starts state) {proc : Nat} {pid : Int} {async : Bool} {joined : Option Nat}
    (isPid : pidOf state proc = some pid)
    (processes : after.processes.map Process.ids = state.processes.map Process.ids)
    (serials : after.nextSerial = state.nextSerial)
    (listed : ∀ job, joined = some job → job ∈ (state.jobs.map Job.members).map Prod.fst)
    (jobs : after.jobs.map Job.members = (state.jobs.map Job.members).map fun job =>
      (job.1, if joined = some job.1 then job.2 ++ [proc] else job.2)) :
    StartsFit ({ proc, pid, async, job := joined } :: starts) after := by
  have sameSerials : (after.jobs.map Job.members).map Prod.fst = (state.jobs.map Job.members).map Prod.fst := by
    rw [jobs, List.map_map]
    rfl
  have back : ∀ job ∈ after.jobs.map Job.members, ∃ old ∈ state.jobs.map Job.members, old.1 = job.1 ∧
      job.2 = if joined = some old.1 then old.2 ++ [proc] else old.2 := by
    intro job member
    rw [jobs] at member
    obtain ⟨old, isOld, rfl⟩ := List.mem_map.mp member
    exact ⟨old, isOld, rfl, rfl⟩
  constructor
  · have increasing := fit.order
    rw [← List.pairwise_map (f := Prod.fst) (R := (· < ·)), ← sameSerials] at increasing
    exact List.pairwise_map.mp increasing
  · intro job member
    obtain ⟨old, isOld, same, -⟩ := back job member
    rw [serials, ← same]
    exact fit.created old isOld
  · rw [processes, serials]
    exact fit.fresh
  · intro job member
    obtain ⟨old, isOld, same, processesOf⟩ := back job member
    rw [processesOf, ← same, fit.members old isOld, List.filter_cons]
    by_cases here : joined = some old.1 <;> simp [here]
  · intro start member job isJob
    rw [sameSerials]
    rcases List.mem_cons.mp member with rfl | member
    · exact listed job isJob
    · exact fit.listed start member job isJob
  · intro start member
    rw [pidOf_eq, processes, ← pidOf_eq]
    rcases List.mem_cons.mp member with rfl | member
    · exact isPid
    · exact fit.entries start member

end StartsFit

variable [System World]

/-- The job that a process of the shell joins. -/
def joinedJob (ctx : Context) (pid : Int) (state : Shell World) : Option Nat :=
  if state.options .monitor then do
    let serial ← ctx.job
    let job ← state.jobs.find? (·.serial == serial)
    if joinsGroup pid (if job.pgid ≤ 0 then pid else job.pgid) state.world then some serial else none
  else none

theorem StartsFit.initChild {starts : List Start} {state after : Shell World} {ctx : Context} {pid : Int} {async : Bool}
    {proc : Nat} (fit : StartsFit starts state) (ended : Leaf.run (initChild ctx pid async) state = .done proc after) :
    StartsFit ({ proc, pid, async, job := joinedJob ctx pid state } :: starts) after := by
  obtain ⟨serial, created, creates, asks⟩ := Leaf.run_bind_done.mp ended
  obtain ⟨createdFit, isPid⟩ := fit.createProcess creates
  have same : created.options = state.options ∧ created.jobs = state.jobs ∧ created.world = state.world := by
    cases creates
    exact ⟨rfl, rfl, rfl⟩
  rw [optionSet, Leaf.run_gets_bind, same.1] at asks
  unfold joinedJob
  cases monitor : state.options .monitor with
  | false =>
      rw [monitor] at asks
      cases asks
      refine createdFit.join isPid rfl rfl (by intro job isJob; cases isJob) ?_
      simp
  | true =>
      rw [monitor] at asks
      simp only [if_true] at asks ⊢
      obtain ⟨job, _, crashes, adds⟩ := Leaf.run_bind_done.mp asks
      obtain ⟨isJob, sameState⟩ := orCrash_done crashes
      rw [sameState] at adds
      obtain ⟨_, added, addsProcess, moves⟩ := Leaf.run_bind_done.mp adds
      obtain ⟨found, process, isFound, isProcess, processes, serials, jobs⟩ := jobAddProcess_done addsProcess
      have processPid : process.pid = pid := by
        rw [pidOf, isProcess, Option.map_some] at isPid
        exact Option.some.inj isPid
      rw [processPid, same.2.2] at jobs
      rw [same.2.1] at isFound
      have foundHere : found.serial = job := by simpa using List.find?_some isFound
      rw [isJob, Option.bind_eq_bind, Option.bind_some, isFound, Option.bind_eq_bind, Option.bind_some]
      generalize joinsGroup pid (if found.pgid ≤ 0 then pid else found.pgid) state.world = allowed at jobs ⊢
      obtain ⟨joined, isJoined⟩ : ∃ joined, joined = if allowed = true then some job else none := ⟨_, rfl⟩
      rw [← isJoined]
      have joins : StartsFit ({ proc := serial, pid, async, job := joined } :: starts) added := by
        refine createdFit.join isPid (by rw [processes]) serials ?_ ?_
        · intro other isOther
          rw [isJoined] at isOther
          split at isOther
          · obtain rfl := Option.some.inj isOther
            rw [same.2.1, List.map_map]
            exact List.mem_map.mpr ⟨found, List.mem_of_find?_eq_some isFound, foundHere⟩
          · cases isOther
        · rw [jobs, same.2.1, List.map_map, List.map_map]
          refine List.map_congr_left fun other _ => ?_
          simp only [Function.comp_apply, Job.members, isJoined]
          by_cases here : other.serial = job
          · subst here
            cases allowed <;> simp
          · have apart : job ≠ other.serial := Ne.symm here
            cases allowed <;> simp [here, apart]
      have keeps : ∀ between : Shell World, SameEntries added between →
          StartsFit ({ proc := serial, pid, async, job := joined } :: starts) between := fun between entries =>
        joins.keep (entries.jobs_map Job.members fun _ => rfl) (entries.processes_map Process.ids fun _ => rfl)
          (Nat.le_of_eq entries.serials.symm)
      rw [Leaf.run_gets_bind, Leaf.run_ite] at moves
      split at moves
      · obtain ⟨_, moved, foregrounds, returns⟩ := Leaf.run_bind_done.mp moves
        obtain ⟨rfl, rfl⟩ := Outcome.done.inj returns
        exact keeps _ ((KeepsEntries.jobSetForeground job true false).done foregrounds)
      · obtain ⟨rfl, rfl⟩ := Outcome.done.inj moves
        exact joins

/-! ## Histories -/

/-- What the shell starts. Waiting, polling and moving jobs keep the processes and the jobs, and any option may be
changed. -/
inductive StartHistory (start : Shell World) : List Start → Shell World → Prop where
  | start : StartHistory start [] start
  | elsewhere {starts : List Start} {state after : Shell World} (reached : StartHistory start starts state)
      (jobs : after.jobs.map Job.members = state.jobs.map Job.members)
      (processes : after.processes.map Process.ids = state.processes.map Process.ids)
      (serials : state.nextSerial ≤ after.nextSerial) : StartHistory start starts after
  | jobCreate {starts : List Start} {state after : Shell World} {node : JobNode} {serial : Nat}
      (reached : StartHistory start starts state) (ended : Leaf.run (jobCreate node) state = .done serial after) :
      StartHistory start starts after
  /-- The process of a subshell or of a substitution joins no job. -/
  | processCreate {starts : List Start} {state after : Shell World} {pid : Int} {serial : Nat}
      (reached : StartHistory start starts state) (ended : Leaf.run (processCreate pid) state = .done serial after) :
      StartHistory start starts after
  | initChild {starts : List Start} {state after : Shell World} {ctx : Context} {pid : Int} {async : Bool}
      {proc : Nat} (reached : StartHistory start starts state)
      (ended : Leaf.run (initChild ctx pid async) state = .done proc after) :
      StartHistory start ({ proc, pid, async, job := joinedJob ctx pid state } :: starts) after

theorem StartHistory.fits {start state : Shell World} {starts : List Start} (noJobs : start.jobs = [])
    (noProcesses : start.processes = []) (reached : StartHistory start starts state) : StartsFit starts state := by
  induction reached with
  | start =>
      refine ⟨?_, ?_, ?_, ?_, nofun, nofun⟩
      · rw [noJobs]
        exact .nil
      · rw [noJobs]
        exact nofun
      · rw [noProcesses]
        exact nofun
      · rw [noJobs]
        exact nofun
  | elsewhere _ jobs processes serials ih => exact ih.keep jobs processes serials
  | jobCreate _ ended ih => exact ih.createJob ended
  | processCreate _ ended ih => exact (ih.createProcess ended).1
  | initChild _ ended ih => exact ih.initChild ended

theorem StartHistory.same {start state after : Shell World} {starts : List Start}
    (reached : StartHistory start starts state) (same : SameEntries state after) : StartHistory start starts after :=
  reached.elsewhere (same.jobs_map Job.members fun _ => rfl) (same.processes_map Process.ids fun _ => rfl)
    (Nat.le_of_eq same.serials.symm)

theorem StartHistory.withJob {start state after : Shell World} {starts : List Start} {ctx inner : Context}
    {node : JobNode} (reached : StartHistory start starts state)
    (ended : Leaf.run (withJob ctx node) state = .done inner after) :
    StartHistory start starts after := by
  unfold Mrsh.withJob at ended
  cases job : ctx.job with
  | some serial =>
      rw [job] at ended
      cases ended
      exact reached
  | none =>
      rw [job] at ended
      obtain ⟨serial, created, creates, returns⟩ := Leaf.run_bind_done.mp ended
      obtain ⟨-, rfl⟩ := Outcome.done.inj returns
      exact reached.jobCreate creates

/-- An asynchronous list starts one process. -/
theorem StartHistory.runAsync {self : Tasks World} {ctx : Context} {list : CommandList} {ret : Int}
    {start state after : Shell World} {starts : List Start} (reached : StartHistory start starts state)
    (ended : Exec.run (runAsync self ctx list) state = .done ret after) :
    ret = taskStatusError ∧ StartHistory start starts after ∨
      ret = 0 ∧ ∃ recent, recent.async = true ∧ StartHistory start (recent :: starts) after := by
  obtain ⟨inner, created, creates, forks⟩ := Exec.run_bind_done.mp ended
  rw [Exec.run_leaf] at creates
  have withJob := reached.withJob creates
  obtain ⟨reply, forked, asks, goesOn⟩ := Exec.run_bind_done.mp forks
  rw [Exec.run_leaf] at asks
  have forkedHistory := withJob.same ((KeepsEntries.call System.fork).done asks)
  cases reply with
  | error errno =>
      obtain ⟨_, told, tells, returns⟩ := Exec.run_bind_done.mp goesOn
      rw [Exec.run_leaf] at tells
      obtain ⟨rfl, rfl⟩ := Outcome.done.inj returns
      exact .inl ⟨rfl, forkedHistory.same ((KeepsEntries.perror _ _).done tells)⟩
  | ok pid =>
      simp only at goesOn
      rw [Exec.run_ite] at goesOn
      split at goesOn
      · exact absurd goesOn (runAsyncChild_neverReturns self inner list.andOrList _ _ _)
      · obtain ⟨proc, started, starts, returns⟩ := Exec.run_bind_done.mp goesOn
        rw [Exec.run_leaf] at starts
        obtain ⟨rfl, rfl⟩ := Outcome.done.inj returns
        exact .inr ⟨rfl, _, rfl, forkedHistory.initChild starts⟩

theorem KeepsEntries.closeFd (fd : Option Int) : KeepsEntries (closeFd fd : Leaf World Unit) := by
  cases fd with
  | none => exact .pure _
  | some fd => exact KeepsEntries.call _

theorem KeepsEntries.nextPipe (last : Bool) :
    KeepsEntries (nextPipe last : Leaf World (Option (Option Int × Option Int))) := by
  refine .ite (.pure _) (.bind (KeepsEntries.call _) fun reply => ?_)
  cases reply with
  | error errno => exact .bind (KeepsEntries.perror _ _) fun _ => .pure _
  | ok fds => exact .pure _

/-- A pipeline starts a process for each of its commands. -/
theorem StartHistory.startCommands {self : Tasks World} {ctx : Context} {cmds : List Command} {curStdin : Option Int}
    {procs : List Nat} {start state after : Shell World} {starts : List Start}
    (reached : StartHistory start starts state)
    (ended : Exec.run (startCommands self ctx curStdin cmds) state = .done (.ok procs) after) :
    procs.length = cmds.length ∧ ∃ more, StartHistory start (more ++ starts) after ∧
      more.map Start.proc = procs.reverse ∧ ∀ start ∈ more, start.async = false := by
  induction cmds generalizing curStdin procs state starts with
  | nil =>
      obtain ⟨same, rfl⟩ := Outcome.done.inj ended
      cases same
      exact ⟨rfl, [], reached, rfl, nofun⟩
  | cons cmd cmds ih =>
      obtain ⟨piped, between, pipes, forks⟩ := Exec.run_bind_done.mp ended
      rw [Exec.run_leaf] at pipes
      have pipedHistory := reached.same ((KeepsEntries.nextPipe _).done pipes)
      cases piped with
      | none => cases forks
      | some fds =>
          obtain ⟨reply, forked, asks, goesOn⟩ := Exec.run_bind_done.mp forks
          rw [Exec.run_leaf] at asks
          have forkedHistory := pipedHistory.same ((KeepsEntries.call System.fork).done asks)
          cases reply with
          | error errno => cases goesOn
          | ok pid =>
              simp only at goesOn
              rw [Exec.run_ite] at goesOn
              split at goesOn
              · obtain ⟨_, _, -, returns⟩ := Exec.run_bind_done.mp goesOn
                cases returns
              · obtain ⟨proc, started, starting, closes⟩ := Exec.run_bind_done.mp goesOn
                rw [Exec.run_leaf] at starting
                obtain ⟨_, closedIn, closesIn, closesMore⟩ := Exec.run_bind_done.mp closes
                obtain ⟨_, closedOut, closesOut, recurses⟩ := Exec.run_bind_done.mp closesMore
                rw [Exec.run_leaf] at closesIn closesOut
                have closedHistory := ((forkedHistory.initChild starting).same
                  ((KeepsEntries.closeFd _).done closesIn)).same ((KeepsEntries.closeFd _).done closesOut)
                obtain ⟨rest, last, runs, returns⟩ := Exec.run_bind_done.mp recurses
                cases rest with
                | error ret => cases returns
                | ok procs =>
                    obtain ⟨same, rfl⟩ := Outcome.done.inj returns
                    cases same
                    obtain ⟨count, more, history, isProcs, foreground⟩ := ih closedHistory runs
                    refine ⟨congrArg Nat.succ count,
                      more ++ [{ proc, pid, async := false, job := joinedJob ctx pid forked }], ?_, ?_, ?_⟩
                    · rw [List.append_assoc]
                      exact history
                    · rw [List.map_append, isProcs, List.reverse_cons]
                      rfl
                    · intro other member
                      rcases List.mem_append.mp member with member | last
                      · exact foreground other member
                      · rw [List.mem_singleton.mp last]

/-! ## The value of `$!` -/

/-- `$!` is the process id of the asynchronous list that was started last. -/
def NamesRecent (starts : List Start) (state : Shell World) : Prop :=
  ∀ recent, starts.find? (·.async) = some recent →
    Leaf.run (parameterGetValue ['!']) state = .done (some (decimal recent.pid)) state

/-- That process, or one with its process id, was the last one that joined its job, and none joined a later job. -/
def RecentLeads (starts : List Start) : Prop :=
  ∀ recent, starts.find? (·.async) = some recent → ∃ start, start.pid = recent.pid ∧ Leads starts start

omit [System World] in
theorem Leads.mem {starts : List Start} {start : Start} (leads : Leads starts start) : start ∈ starts := by
  obtain ⟨since, before, _, rfl, -⟩ := leads
  exact List.mem_append_right _ List.mem_cons_self

theorem parameterGetValue_bang (state : Shell World) :
    Leaf.run (parameterGetValue ['!']) state =
      match lastJobProcess state.jobs with
      | none => .done (some []) state
      | some serial =>
          match pidOf state serial with
          | none => .stopped .aborted state
          | some pid => .done (some (decimal pid)) state := by
  have reads : (parameterGetValue ['!'] : Leaf World (Option Str)) = gets (·.jobs) >>= _ := rfl
  rw [reads, Leaf.run_gets_bind]
  cases lastJobProcess state.jobs with
  | none => rfl
  | some serial =>
      simp only [findProcess, Leaf.run_bind, Leaf.run_gets, Outcome.andThen_done, pidOf]
      cases state.processes.find? (·.serial == serial) with
      | none => rfl
      | some process => rfl

/-- In every history, `$!` is the process id of the asynchronous list that was started last if and only if the process
joined a job, and none joined that job or a later one since. -/
theorem parameterGetValue_recent_iff {start state : Shell World} {starts : List Start} (noJobs : start.jobs = [])
    (noProcesses : start.processes = []) (reached : StartHistory start starts state) :
    NamesRecent starts state ↔ RecentLeads starts := by
  have fit := reached.fits noJobs noProcesses
  refine forall_congr' fun recent => imp_congr_right fun isRecent => ?_
  rw [parameterGetValue_bang]
  constructor
  · intro names
    cases last : lastJobProcess state.jobs with
    | none =>
        rw [last] at names
        have empty : ([] : Str) = decimal recent.pid := Option.some.inj (Outcome.done.inj names).1
        exact absurd empty.symm (decimal_nonempty _)
    | some serial =>
        obtain ⟨start, isProc, leads⟩ := fit.lastJobProcess_iff.mp last
        refine ⟨start, ?_, leads⟩
        simp only [last, ← isProc, fit.entries start leads.mem] at names
        exact decimal_injective (Option.some.inj (Outcome.done.inj names).1)
  · rintro ⟨start, samePid, leads⟩
    rw [fit.lastJobProcess_iff.mpr ⟨start, rfl, leads⟩, ← samePid]
    simp only [fit.entries start leads.mem]

end

/-! ## Asynchronous lists with and without job control -/

def exitJob : JobNode := .commandList (exitCommand [])

def jobContext (serial : Nat) (async : Bool) : Context := { job := some serial, background := async }

/-- The shell with one more job. -/
def withExitJob (state : Shell Machine) : Shell Machine := (Leaf.run (jobCreate exitJob) state).state

/-- The shell after a process was started for a new job. -/
def afterStart (serial : Nat) (pid : Int) (async : Bool) (state : Shell Machine) : Shell Machine :=
  (Leaf.run (initChild (jobContext serial async) pid async) (withExitJob state)).state

theorem StartHistory.afterStart {start state : Shell Machine} {starts : List Start}
    (reached : StartHistory start starts state) (serial proc : Nat) (pid : Int) (async : Bool) (joined : Option Nat)
    (creates : (Leaf.run (Mrsh.jobCreate exitJob) state).value? = some serial)
    (ended : (Leaf.run (Mrsh.initChild (jobContext serial async) pid async) (withExitJob state)).value? = some proc)
    (joins : joinedJob (jobContext serial async) pid (withExitJob state) = joined) :
    StartHistory start (⟨proc, pid, async, joined⟩ :: starts) (Mrsh.afterStart serial pid async state) := by
  rw [← joins]
  exact (reached.jobCreate (Outcome.eq_done_of_value? creates)).initChild (Outcome.eq_done_of_value? ended)

def asyncShell : Shell Machine := afterStart 0 5 true jobControlShell

theorem asyncShell_history : StartHistory jobControlShell [⟨1, 5, true, some 0⟩] asyncShell :=
  StartHistory.start.afterStart 0 1 5 true (some 0) (by decide +kernel) (by decide +kernel) (by decide +kernel)

theorem parameterGetValue_recent_async : NamesRecent [⟨1, 5, true, some 0⟩] asyncShell := by
  refine (parameterGetValue_recent_iff rfl rfl asyncShell_history).mpr ?_
  rintro recent found
  obtain rfl := Option.some.inj found
  exact ⟨_, rfl, [], [], 0, rfl, rfl, nofun, nofun⟩

/-- Without job control no process joins a job. With it, a foreground pipeline takes the place of an asynchronous list
that was started before. -/
theorem parameterGetValue_notRecent :
    (¬ ∀ (start state : Shell Machine) (starts : List Start), start.jobs = [] → start.processes = [] →
      StartHistory start starts state → NamesRecent starts state) ∧
    (∃ state : Shell Machine, StartHistory (mrshStateCreate [] Machine.isolated) [⟨1, 5, true, none⟩] state ∧
      (Leaf.run (parameterGetValue ['!']) state).value? = some (some [])) ∧
    ∃ state : Shell Machine, StartHistory jobControlShell [⟨3, 6, false, some 2⟩, ⟨1, 5, true, some 0⟩] state ∧
      (Leaf.run (parameterGetValue ['!']) state).value? = some (some ['6']) := by
  have without : StartHistory (mrshStateCreate [] Machine.isolated) [⟨1, 5, true, none⟩]
      (afterStart 0 5 true (mrshStateCreate [] Machine.isolated)) :=
    StartHistory.start.afterStart 0 1 5 true none (by decide +kernel) (by decide +kernel) (by decide +kernel)
  have empty : (Leaf.run (parameterGetValue ['!'])
      (afterStart 0 5 true (mrshStateCreate [] Machine.isolated))).value? = some (some []) := by decide +kernel
  refine ⟨fun always => ?_, ⟨_, without, empty⟩, ⟨afterStart 2 6 false asyncShell, ?_, by decide +kernel⟩⟩
  · have names := always _ _ _ rfl rfl without _ rfl
    rw [names] at empty
    exact absurd (Option.some.inj empty) (by decide)
  · exact asyncShell_history.afterStart 2 3 6 false (some 2) (by decide +kernel) (by decide +kernel) (by decide +kernel)

theorem startHistory_runAsync :
    let start := mrshStateCreate [] Machine.isolated
    let after := (Exec.run (runAsync (tasks 1) .initial (exitCommand [])) start).state
    0 = taskStatusError ∧ StartHistory start [] after ∨
      (0 : Int) = 0 ∧ ∃ recent, recent.async = true ∧ StartHistory start [recent] after :=
  StartHistory.runAsync .start (Outcome.eq_done_of_value? (by decide +kernel))

/-- A machine that has pipes. -/
@[reducible] def pipeSystem : System Machine :=
  { (inferInstance : System Machine) with pipe := fun machine => (.ok (3, 4), machine) }

/-- `( ) | ( )` starts two processes. -/
theorem startHistory_startCommands :
    let : System Machine := pipeSystem
    let start := mrshStateCreate [] Machine.isolated
    let cmds : List Command := [.subshell ⟨[], .invalid, .invalid⟩, .subshell ⟨[], .invalid, .invalid⟩]
    [0, 1].length = cmds.length ∧ ∃ more,
      StartHistory start (more ++ []) (Exec.run (startCommands (tasks 1) (jobContext 0 false) none cmds) start).state ∧
        more.map Start.proc = [0, 1].reverse ∧ ∀ start ∈ more, start.async = false := by
  let : System Machine := pipeSystem
  exact StartHistory.startCommands .start (Outcome.eq_done_of_value? (by decide +kernel))

end Mrsh
