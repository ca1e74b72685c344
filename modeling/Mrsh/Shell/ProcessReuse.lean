import Mrsh.Shell.JobSpecifications
import Mrsh.Shell.ProcessStatus

namespace Mrsh

open Mrsh.Data

/-! # Process ids that are used again

The table keeps the entry of a process until the job it was added to is removed,
  and for good where it was added to none.
The system gives its process id to another process before that.
-/

/-- The entry that was last created with the process id. The last one comes first. -/
def latest (created : List (Int × Nat)) (pid : Int) : Option Nat := (created.find? (·.1 == pid)).map (·.2)

theorem latest_cons_self (created : List (Int × Nat)) (pid : Int) (serial : Nat) :
    latest ((pid, serial) :: created) pid = some serial := by
  rw [latest, List.find?_cons_of_pos (by simp)]
  rfl

theorem latest_cons_other {pid other : Int} (different : pid ≠ other) (created : List (Int × Nat)) (serial : Nat) :
    latest ((pid, serial) :: created) other = latest created other := by
  rw [latest, List.find?_cons_of_neg (by simpa using different)]
  rfl

theorem mem_of_mapM {α β : Type} {find : α → Option β} {values : List α} {results : List β} {value : α}
    {result : β} (found : values.mapM find = some results) (member : value ∈ values) (here : find value = some result) :
    result ∈ results := by
  induction values generalizing results with
  | nil => cases member
  | cons first rest ih =>
      simp only [List.mapM_cons, Option.bind_eq_bind, Option.bind_eq_some_iff, Option.pure_def,
        Option.some.injEq] at found
      obtain ⟨firstResult, isFirst, others, later, rfl⟩ := found
      rcases List.mem_cons.mp member with same | member
      · rw [same, isFirst] at here
        cases here
        exact List.mem_cons_self
      · exact List.mem_cons_of_mem _ (ih later member)

section

variable {World : Type}

theorem find_process_iff {state : Shell World} {serial : Nat} {proc : Process}
    (order : state.processes.Pairwise (·.serial < ·.serial)) :
    entryOf state serial = some proc ↔ proc ∈ state.processes ∧ proc.serial = serial := by
  constructor
  · intro found
    exact ⟨List.mem_of_find?_eq_some found, by simpa using List.find?_some found⟩
  · rintro ⟨member, rfl⟩
    obtain ⟨before, rest, split⟩ := List.append_of_mem member
    rw [split, List.pairwise_append] at order
    have earlier : before.find? (·.serial == proc.serial) = none := by
      refine List.find?_eq_none.mpr fun other among => ?_
      simpa using Nat.ne_of_lt (order.2.2 other among proc List.mem_cons_self)
    rw [entryOf, split, List.find?_append, earlier, Option.none_or, List.find?_cons_of_pos (by simp)]

theorem jobPollLoop_ended {procs : List Process} {status result : Int} {stopped : Bool}
    (polled : jobPollLoop procs status stopped = some result) (ended : 0 ≤ result) :
    ∀ proc ∈ procs, processPoll proc ≠ some taskStatusWait := by
  induction procs generalizing status stopped with
  | nil => exact nofun
  | cons first rest ih =>
      simp only [jobPollLoop, Option.bind_eq_bind, Option.bind_eq_some_iff] at polled
      obtain ⟨polledFirst, isFirst, polled⟩ := polled
      split at polled
      · obtain rfl := Option.some.inj polled
        exact absurd ended (by decide)
      · rename_i waits
        rintro proc (_ | ⟨_, member⟩)
        · rw [isFirst]
          simpa using waits
        · exact ih polled proc member

theorem polled_ended {state : Shell World} {serial process : Nat} {job : Job} {proc : Process} {status : Int}
    (polls : polled state serial = some status) (ended : 0 ≤ status)
    (found : state.jobs.find? (·.serial == serial) = some job) (member : process ∈ job.processes)
    (entry : entryOf state process = some proc) : processPoll proc ≠ some taskStatusWait := by
  simp only [polled, found, Option.bind_eq_bind, Option.bind_some, Option.bind_eq_some_iff] at polls
  obtain ⟨procs, listed, looped⟩ := polls
  exact jobPollLoop_ended looped ended proc (mem_of_mapM listed member entry)

variable [System World]

theorem jobDestroy_processes {serial : Nat} {state after : Shell World}
    (ended : Leaf.run (jobDestroy serial) state = .done () after) :
    ∃ job, state.jobs.find? (·.serial == serial) = some job ∧
      after.processes = state.processes.filter (·.serial ∉ job.processes) := by
  obtain ⟨job, _, finds, asks⟩ := Leaf.run_bind_done.mp ended
  obtain ⟨found, unchanged⟩ := findJob_done finds
  refine ⟨job, found, ?_⟩
  rw [unchanged, Leaf.run_gets_bind] at asks
  have drops : ∀ {between : Shell World}, between.processes = state.processes → Leaf.run (do
        update fun core => { core with jobs := core.jobs.filter (·.serial != serial) }
        destroyProcesses job.processes) between = .done () after →
      after.processes = state.processes.filter (·.serial ∉ job.processes) := by
    intro between same dropped
    obtain ⟨_, _, removes, destroys⟩ := Leaf.run_bind_done.mp dropped
    cases removes
    rw [← same]
    exact (destroyProcesses_done destroys).2.2
  split at asks
  · obtain ⟨_, between, moves, dropped⟩ := Leaf.run_bind_done.mp asks
    exact drops (Run.Respects.done (jobSetForeground_background_lowers serial) moves).processes dropped
  · exact drops rfl asks

/-- What the shell does with its processes: the processes created, the last one first, and the process ids of those that
it has not waited for. The system only gives out other process ids. -/
inductive ProcessRun (start : Shell World) : List (Int × Nat) → List Int → Shell World → Prop where
  | start : ProcessRun start [] [] start
  | created {created : List (Int × Nat)} {alive : List Int} {state after : Shell World} {pid : Int} {serial : Nat}
      (reached : ProcessRun start created alive state) (free : pid ∉ alive)
      (ended : Leaf.run (processCreate pid) state = .done serial after) :
      ProcessRun start ((pid, serial) :: created) (pid :: alive) after
  | ended {created : List (Int × Nat)} {alive : List Int} {state after : Shell World} {pid : Int} {stat : Nat}
      (reached : ProcessRun start created alive state) (live : pid ∈ alive) (ends : terminates stat = true)
      (ended : Leaf.run (updateProcess pid stat) state = .done () after) :
      ProcessRun start created (alive.filter (· != pid)) after
  /-- The shell removes a job that has ended. -/
  | destroyed {created : List (Int × Nat)} {alive : List Int} {state after : Shell World} {serial : Nat} {status : Int}
      (reached : ProcessRun start created alive state) (polls : polled state serial = some status) (past : 0 ≤ status)
      (ended : Leaf.run (jobDestroy serial) state = .done () after) : ProcessRun start created alive after
  /-- The jobs, job control and anything else may change. -/
  | elsewhere {created : List (Int × Nat)} {alive : List Int} {state after : Shell World}
      (reached : ProcessRun start created alive state) (same : after.processes = state.processes)
      (serials : state.nextSerial ≤ after.nextSerial) : ProcessRun start created alive after
  /-- A child has the table of its parent, and none of its processes. -/
  | forked {created : List (Int × Nat)} {alive : List Int} {state after : Shell World}
      (reached : ProcessRun start created alive state) (same : after.processes = state.processes)
      (serials : state.nextSerial ≤ after.nextSerial) : ProcessRun start created [] after

/-- The table has the entries in the order in which they were created, and that of every process that runs. -/
structure TableOrdered (created : List (Int × Nat)) (alive : List Int) (state : Shell World) : Prop where
  order : state.processes.Pairwise (·.serial < ·.serial)
  newest : created.Pairwise fun later earlier => earlier.2 < later.2
  fresh : ∀ entry ∈ created, entry.2 < state.nextSerial
  listed : ∀ proc ∈ state.processes, (proc.pid, proc.serial) ∈ created
  running : ∀ proc ∈ state.processes, proc.stopped = false
  present : ∀ pid ∈ alive, ∃ proc ∈ state.processes, proc.pid = pid ∧ latest created pid = some proc.serial ∧
    proc.terminated = false

namespace TableOrdered

variable {created : List (Int × Nat)} {alive : List Int} {state after : Shell World}

omit [System World] in
theorem elsewhere (ordered : TableOrdered created alive state) (same : after.processes = state.processes)
    (serials : state.nextSerial ≤ after.nextSerial) {fewer : List Int} (among : fewer ⊆ alive) :
    TableOrdered created fewer after where
  order := same ▸ ordered.order
  newest := ordered.newest
  fresh entry member := Nat.lt_of_lt_of_le (ordered.fresh entry member) serials
  listed := same ▸ ordered.listed
  running := same ▸ ordered.running
  present pid member := same ▸ ordered.present pid (among member)

omit [System World] in
theorem create {pid : Int} {serial : Nat} (ordered : TableOrdered created alive state) (free : pid ∉ alive)
    (ended : Leaf.run (processCreate pid) state = .done serial after) :
    TableOrdered ((pid, serial) :: created) (pid :: alive) after := by
  cases ended
  have below : ∀ proc ∈ state.processes, proc.serial < state.nextSerial :=
    fun proc member => ordered.fresh _ (ordered.listed proc member)
  constructor
  · refine List.pairwise_append.mpr ⟨ordered.order, List.pairwise_singleton _ _, fun proc member last single => ?_⟩
    cases List.mem_singleton.mp single
    exact below proc member
  · exact List.pairwise_cons.mpr ⟨ordered.fresh, ordered.newest⟩
  · rintro entry (_ | ⟨_, member⟩)
    · exact Nat.lt_succ_self _
    · exact Nat.lt_succ_of_lt (ordered.fresh entry member)
  · intro proc member
    rcases List.mem_append.mp member with old | last
    · exact List.mem_cons_of_mem _ (ordered.listed proc old)
    · cases List.mem_singleton.mp last
      exact List.mem_cons_self
  · intro proc member
    rcases List.mem_append.mp member with old | last
    · exact ordered.running proc old
    · cases List.mem_singleton.mp last
      rfl
  · rintro other (_ | ⟨_, member⟩)
    · exact ⟨_, List.mem_append_right _ (List.mem_singleton.mpr rfl), rfl, latest_cons_self .., rfl⟩
    · obtain ⟨proc, old, pidOf, newest, runs⟩ := ordered.present other member
      have different : pid ≠ other := fun same => free (same ▸ member)
      exact ⟨proc, List.mem_append_left _ old, pidOf, (latest_cons_other different ..).trans newest, runs⟩

omit [System World] in
theorem update {pid : Int} {stat : Nat} (ordered : TableOrdered created alive state) (ends : terminates stat = true)
    (ended : Leaf.run (updateProcess pid stat) state = .done () after) :
    TableOrdered created (alive.filter (· != pid)) after := by
  have serials : after.nextSerial = state.nextSerial := ((KeepsEntries.updateProcess pid stat).done ended).serials
  have processes := updateProcess_done ended
  cases found : state.processes.find? (·.pid == pid) with
  | none =>
      rw [found] at processes
      exact ordered.elsewhere processes (Nat.le_of_eq serials.symm) (List.filter_subset_self _)
  | some first =>
      rw [found] at processes
      have firstMember := List.mem_of_find?_eq_some found
      have firstPid : first.pid = pid := by simpa using List.find?_some found
      have records : ∀ proc : Process, proc.record (.status stat) = { proc with terminated := true, stat } :=
        fun proc => if_pos ends
      have keeps : ∀ proc : Process, (proc.record (.status stat)).pid = proc.pid ∧
          (proc.record (.status stat)).serial = proc.serial ∧ (proc.record (.status stat)).stopped = proc.stopped := by
        intro proc
        rw [records]
        exact ⟨rfl, rfl, rfl⟩
      have kept : ∀ proc ∈ after.processes, ∃ old ∈ state.processes,
          proc.pid = old.pid ∧ proc.serial = old.serial ∧ proc.stopped = old.stopped := by
        intro proc member
        rw [processes] at member
        obtain ⟨old, among, rfl⟩ := List.mem_map.mp member
        refine ⟨old, among, ?_⟩
        split
        · exact keeps old
        · exact ⟨rfl, rfl, rfl⟩
      have serialsKept : after.processes.map (·.serial) = state.processes.map (·.serial) := by
        rw [processes, List.map_map]
        refine List.map_congr_left fun proc _ => ?_
        simp only [Function.comp_apply]
        split
        · exact (keeps proc).2.1
        · rfl
      constructor
      · have increasing : (state.processes.map (·.serial)).Pairwise (· < ·) := List.pairwise_map.mpr ordered.order
        rw [← serialsKept] at increasing
        exact List.pairwise_map.mp increasing
      · exact ordered.newest
      · rw [serials]
        exact ordered.fresh
      · intro proc member
        obtain ⟨old, among, pidOf, serialOf, -⟩ := kept proc member
        rw [pidOf, serialOf]
        exact ordered.listed old among
      · intro proc member
        obtain ⟨old, among, -, -, stopped⟩ := kept proc member
        rw [stopped]
        exact ordered.running old among
      · intro other member
        obtain ⟨live, different⟩ := List.mem_filter.mp member
        obtain ⟨proc, among, pidOf, newest, runs⟩ := ordered.present other live
        -- The entry that changes has another process id.
        have apart : proc.serial ≠ first.serial := by
          intro same
          have one := ((find_process_iff ordered.order).mpr ⟨among, same⟩).symm.trans
            ((find_process_iff ordered.order).mpr ⟨firstMember, rfl⟩)
          rw [Option.some.inj one, firstPid] at pidOf
          simp [pidOf] at different
        refine ⟨proc, ?_, pidOf, newest, runs⟩
        rw [processes]
        exact List.mem_map.mpr ⟨proc, among, if_neg apart⟩

theorem destroy {serial : Nat} {status : Int} (ordered : TableOrdered created alive state)
    (polls : polled state serial = some status) (past : 0 ≤ status)
    (ended : Leaf.run (jobDestroy serial) state = .done () after) : TableOrdered created alive after := by
  obtain ⟨job, found, processes⟩ := jobDestroy_processes ended
  have serials : after.nextSerial = state.nextSerial := (jobDestroy_done ended).serials
  have kept : ∀ proc ∈ after.processes, proc ∈ state.processes := by
    intro proc member
    rw [processes] at member
    exact (List.mem_filter.mp member).1
  constructor
  · rw [processes]
    exact ordered.order.filter _
  · exact ordered.newest
  · rw [serials]
    exact ordered.fresh
  · exact fun proc member => ordered.listed proc (kept proc member)
  · exact fun proc member => ordered.running proc (kept proc member)
  · intro pid live
    obtain ⟨proc, among, pidOf, newest, runs⟩ := ordered.present pid live
    refine ⟨proc, ?_, pidOf, newest, runs⟩
    rw [processes]
    refine List.mem_filter.mpr ⟨among, ?_⟩
    have outside : proc.serial ∉ job.processes := by
      intro member
      refine polled_ended polls past found member ((find_process_iff ordered.order).mpr ⟨among, rfl⟩) ?_
      rw [processPoll, ordered.running proc among, runs]
      rfl
    simpa using outside

end TableOrdered

theorem ProcessRun.ordered {start state : Shell World} {created : List (Int × Nat)} {alive : List Int}
    (noProcesses : start.processes = []) (reached : ProcessRun start created alive state) :
    TableOrdered created alive state := by
  induction reached with
  | start =>
      refine ⟨?_, .nil, nofun, ?_, ?_, nofun⟩
      · rw [noProcesses]
        exact .nil
      · rw [noProcesses]
        exact nofun
      · rw [noProcesses]
        exact nofun
  | created _ free ended ih => exact ih.create free ended
  | ended _ _ ends ended ih => exact ih.update ends ended
  | destroyed _ polls past ended ih => exact ih.destroy polls past ended
  | elsewhere _ same serials ih => exact ih.elsewhere same serials fun _ member => member
  | forked _ same serials ih => exact ih.elsewhere same serials (List.nil_subset _)

/-! ## The entry that gets the status -/

/-- A status that ends the process goes to the entry, and `job_wait_process` returns it: right after, and where it waits
for the process itself. -/
structure RecordsStatus (state : Shell World) (pid : Int) (serial : Nat) : Prop where
  recorded : ∀ stat, terminates stat = true → ∃ after proc,
    Leaf.run (updateProcess pid stat) state = .done () after ∧
    entryOf after serial = some proc ∧ proc.terminated = true ∧ proc.stat = stat ∧
      ∀ fuel, Leaf.run (jobWaitProcess serial (fuel + 1)) after = .done (exitStatus stat) after
  waited : ∀ fuel stat self first second status after, terminates stat = true →
    System.getpid state.world = (self, first) → System.waitpid pid false (!state.child) first = (.ok (pid, stat),
      second) →
      Leaf.run (jobWaitProcess serial fuel) state = .done status after → status = exitStatus stat

/-- An entry that was created earlier with the process id is still in the table. -/
def Stale (state : Shell World) (pid : Int) (serial : Nat) : Prop :=
  ∃ old ∈ state.processes, old.pid = pid ∧ old.serial < serial

omit [System World] in
theorem updateProcess_ends (pid : Int) {stat : Nat} (ends : terminates stat = true) (state : Shell World) :
    ∃ after, Leaf.run (updateProcess pid stat) state = .done () after := by
  rw [updateProcess, Leaf.run_gets_bind]
  cases state.processes.find? (·.pid == pid) with
  | none => exact ⟨state, rfl⟩
  | some first =>
      have taken : (wifexited stat || wifsignaled stat) = true := ends
      simp only [taken, if_true]
      exact ⟨_, rfl⟩

theorem jobWaitProcess_terminated {state : Shell World} {serial fuel : Nat} {proc : Process}
    (entry : entryOf state serial = some proc) (running : proc.stopped = false) (ended : proc.terminated = true)
    (ends : terminates proc.stat = true) :
    Leaf.run (jobWaitProcess serial (fuel + 1)) state = .done (exitStatus proc.stat) state := by
  have polls := processPoll_terminated running ended ends
  have settled : (exitStatus proc.stat != taskStatusWait) = true := by
    rw [bne_iff_ne]
    unfold exitStatus taskStatusWait
    split <;> omega
  unfold entryOf at entry
  rw [jobWaitProcess, findProcess]
  simp only [Leaf.run_bind, Leaf.run_gets, Outcome.andThen_done, entry, orCrash_some, Leaf.run_pure, polls,
    if_pos settled]

theorem jobWaitPid_reported {state after : Shell World} {fuel : Nat} {pid self : Int} {stat : Nat}
    {first second : World} {ok : Bool} (isSelf : System.getpid state.world = (self, first))
    (reports : System.waitpid pid false (!state.child) first = (.ok (pid, stat), second))
    (ended : Leaf.run (jobWaitPid fuel pid false) state = .done ok after) :
    ok = true ∧ ∃ fewer, fuel = fewer + 1 ∧ ∃ updated,
      Leaf.run (updateProcess pid stat) { state with world := second } = .done () updated ∧
        after.processes = updated.processes := by
  obtain ⟨_, asked, asks, checks⟩ := Leaf.run_bind_done.mp ended
  rw [Leaf.run_call, isSelf] at asks
  obtain ⟨rfl, rfl⟩ := Outcome.done.inj asks
  obtain ⟨_, checked, asserts, loops⟩ := Leaf.run_bind_done.mp checks
  obtain ⟨allowed, same⟩ := assertThat_done asserts
  rw [same, Leaf.run_gets_bind] at loops
  cases fuel with
  | zero => cases loops
  | succ fewer =>
      obtain ⟨reply, answered, waits, goesOn⟩ := Leaf.run_bind_done.mp loops
      have answer : System.waitpid pid false (!state.child) ({ state with world := first } : Shell World).world =
          (.ok (pid, stat), second) := reports
      rw [Leaf.run_call, answer] at waits
      obtain ⟨rfl, rfl⟩ := Outcome.done.inj waits
      have positive : ¬ (pid == 0) = true := by
        simp only [Bool.and_eq_true, decide_eq_true_eq] at allowed
        rw [beq_iff_eq]
        omega
      simp only [if_neg positive] at goesOn
      obtain ⟨_, known, matched, updates⟩ := Leaf.run_bind_done.mp goesOn
      obtain ⟨-, same⟩ := assertThat_done matched
      rw [same] at updates
      obtain ⟨_, recorded, records, returns⟩ := Leaf.run_bind_done.mp updates
      obtain ⟨rfl, rfl⟩ := Outcome.done.inj returns
      obtain ⟨_, updated, update, moves⟩ := Leaf.run_bind_done.mp records
      refine ⟨rfl, fewer, rfl, updated, update, ?_⟩
      rw [Leaf.run_gets_bind, Leaf.run_ite] at moves
      split at moves
      · rw [Leaf.run_gets_bind] at moves
        exact (Run.Respects.done (updateJobs_lowers _) moves).processes
      · obtain ⟨-, rfl⟩ := Outcome.done.inj moves
        rfl

omit [System World] in
theorem find_pid_least {state : Shell World} {pid : Int} {proc : Process}
    (order : state.processes.Pairwise (·.serial < ·.serial)) (member : proc ∈ state.processes)
    (here : proc.pid = pid) :
    ∃ first, state.processes.find? (·.pid == pid) = some first ∧ first.serial ≤ proc.serial := by
  have has : (state.processes.find? (·.pid == pid)).isSome :=
    List.find?_isSome.mpr ⟨proc, member, by simpa using here⟩
  obtain ⟨first, found⟩ := Option.isSome_iff_exists.mp has
  refine ⟨first, found, ?_⟩
  obtain ⟨-, before, rest, split, others⟩ := List.find?_eq_some_iff_append.mp found
  rw [split] at member order
  rcases List.mem_append.mp member with earlier | later
  · have different := others proc earlier
    simp [here] at different
  · rcases List.mem_cons.mp later with same | later
    · rw [same]
    · exact Nat.le_of_lt (List.rel_of_pairwise_cons (List.pairwise_append.mp order).2.1 later)

/-- In every run, the status of a process goes to the entry that was last created with its process id if and only if
no earlier entry with the process id is left. -/
theorem updateProcess_latest_iff {start state : Shell World} {created : List (Int × Nat)} {alive : List Int}
    (noProcesses : start.processes = []) (reached : ProcessRun start created alive state) {pid : Int} {serial : Nat}
    (live : pid ∈ alive) (newest : latest created pid = some serial) :
    RecordsStatus state pid serial ↔ ¬ Stale state pid serial := by
  have ordered := reached.ordered noProcesses
  obtain ⟨proc, member, pidOf, isNewest, runs⟩ := ordered.present pid live
  obtain rfl := Option.some.inj (newest.symm.trans isNewest)
  have entry : entryOf state proc.serial = some proc := (find_process_iff ordered.order).mpr ⟨member, rfl⟩
  constructor
  · rintro records ⟨old, among, oldPid, older⟩
    obtain ⟨after, recorded, ended, found, flagged, -⟩ := records.recorded 0 rfl
    obtain ⟨first, isFirst, least⟩ := find_pid_least ordered.order among oldPid
    have unchanged : entryOf after proc.serial = some proc := by
      rw [updateProcess_find _ isFirst ended, entry, Option.map_some,
        if_neg (Nat.ne_of_gt (Nat.lt_of_le_of_lt least older))]
    rw [found] at unchanged
    rw [Option.some.inj unchanged, runs] at flagged
    cases flagged
  · intro sole
    have first : state.processes.find? (·.pid == pid) = some proc := by
      obtain ⟨first, isFirst, least⟩ := find_pid_least ordered.order member pidOf
      have firstMember := List.mem_of_find?_eq_some isFirst
      have notBefore : ¬ first.serial < proc.serial :=
        fun earlier => sole ⟨first, firstMember, by simpa using List.find?_some isFirst, earlier⟩
      have same :=
        (find_process_iff ordered.order).mpr ⟨firstMember, Nat.le_antisymm least (Nat.le_of_not_lt notBefore)⟩
      rw [isFirst, ← same, entry]
    have goes : ∀ world stat updated, terminates stat = true →
        Leaf.run (updateProcess pid stat) ({ state with world } : Shell World) = .done () updated →
        entryOf updated proc.serial = some { proc with terminated := true, stat } := by
      intro world stat updated ends ended
      rw [updateProcess_entry (by rw [first]; rfl) ended]
      change Option.map _ (entryOf state proc.serial) = _
      rw [entry, Option.map_some, Process.record, if_pos ends]
    constructor
    · intro stat ends
      obtain ⟨after, ended⟩ := updateProcess_ends pid ends state
      have recorded := goes state.world stat after ends ended
      exact ⟨after, _, ended, recorded, rfl, rfl, fun fuel =>
        jobWaitProcess_terminated recorded (ordered.running proc member) rfl ends⟩
    · intro fuel stat self first second status after ends isSelf reports ended
      cases fuel with
      | zero => cases ended
      | succ fuel =>
          obtain ⟨found, _, finds, polls⟩ := Leaf.run_bind_done.mp ended
          obtain ⟨isFound, same⟩ := findProcess_done finds
          obtain rfl := Option.some.inj (isFound.symm.trans entry)
          rw [same] at polls
          obtain ⟨polled, _, crashes, waits⟩ := Leaf.run_bind_done.mp polls
          obtain ⟨isStatus, same⟩ := orCrash_done crashes
          have running : processPoll found = some taskStatusWait := by
            rw [processPoll, ordered.running found member, runs]
            rfl
          obtain rfl := Option.some.inj (isStatus.symm.trans running)
          rw [same, Leaf.run_ite, if_neg (by decide)] at waits
          obtain ⟨ok, waited, reaps, goesOn⟩ := Leaf.run_bind_done.mp waits
          rw [pidOf] at reaps
          obtain ⟨rfl, fewer, rfl, updated, update, processes⟩ := jobWaitPid_reported isSelf reports reaps
          have recorded : entryOf waited found.serial = some { found with terminated := true, stat } := by
            rw [entryOf, processes]
            exact goes second stat updated ends update
          rw [if_pos rfl, jobWaitProcess_terminated recorded (ordered.running found member) rfl ends] at goesOn
          exact (Outcome.done.inj goesOn).1.symm

end

/-! ## A process id that is used again -/

def firstProcessShell : Shell Machine := (Leaf.run (processCreate 5) (mrshStateCreate [] Machine.isolated)).state

theorem firstProcessShell_run : ProcessRun (mrshStateCreate [] Machine.isolated) [(5, 0)] [5] firstProcessShell := by
  have created : (Leaf.run (processCreate 5) (mrshStateCreate [] Machine.isolated)).value? = some 0 := by decide +kernel
  exact .created .start List.not_mem_nil (Outcome.eq_done_of_value? created)

/-- The first process has exited. -/
def exitedShell : Shell Machine := (Leaf.run (updateProcess 5 0) firstProcessShell).state

def reusedShell : Shell Machine := (Leaf.run (processCreate 5) exitedShell).state

theorem reusedShell_run : ProcessRun (mrshStateCreate [] Machine.isolated) [(5, 1), (5, 0)] [5] reusedShell := by
  have ended : (Leaf.run (updateProcess 5 0) firstProcessShell).value? = some () := by decide +kernel
  have exited : ProcessRun (mrshStateCreate [] Machine.isolated) [(5, 0)] [] exitedShell :=
    .ended firstProcessShell_run List.mem_cons_self rfl (Outcome.eq_done_of_value? ended)
  have created : (Leaf.run (processCreate 5) exitedShell).value? = some 1 := by decide +kernel
  exact .created exited List.not_mem_nil (Outcome.eq_done_of_value? created)

/-- The process of a job has exited, and the job was removed. -/
def removedShell : Shell Machine := (Leaf.run (do updateProcess 5 0; jobDestroy 0) startedJobShell).state

def renewedShell : Shell Machine := (Leaf.run (processCreate 5) removedShell).state

theorem renewedShell_run : ProcessRun jobControlShell [(5, 2), (5, 1)] [5] renewedShell := by
  have listed : ProcessRun jobControlShell [] [] ownJobShell := .elsewhere .start rfl (by decide)
  have forked : ProcessRun jobControlShell [(5, 1)] [5] startedJobShell :=
    .elsewhere (.created listed List.not_mem_nil startedJobShell_steps.1) rfl (by decide)
  have removes : (Leaf.run (do updateProcess 5 0; jobDestroy 0) startedJobShell).value? = some () := by decide +kernel
  obtain ⟨_, exited, exits, destroys⟩ := Leaf.run_bind_done.mp (Outcome.eq_done_of_value? removes)
  have polls : polled (Leaf.run (updateProcess 5 0) startedJobShell).state 0 = some 0 := by decide +kernel
  rw [exits] at polls
  have removed : ProcessRun jobControlShell [(5, 1)] [] removedShell :=
    .destroyed (.ended forked List.mem_cons_self rfl exits) polls (Int.le_refl 0) destroys
  have created : (Leaf.run (processCreate 5) removedShell).value? = some 2 := by decide +kernel
  exact .created removed List.not_mem_nil (Outcome.eq_done_of_value? created)

/-- The process id of a process that was removed with its job is that of another process. -/
theorem updateProcess_latest_renewed : RecordsStatus renewedShell 5 2 := by
  refine (updateProcess_latest_iff rfl renewedShell_run List.mem_cons_self rfl).mpr ?_
  rintro ⟨old, member, -, older⟩
  have listed : renewedShell.processes.all (2 ≤ ·.serial) = true := by decide +kernel
  exact Nat.not_lt_of_le (of_decide_eq_true (List.all_eq_true.mp listed old member)) older

/-- The status of the second process with the process id goes to the entry of the first one, which was not removed. -/
theorem updateProcess_reused :
    (¬ ∀ (start state : Shell Machine) (created : List (Int × Nat)) (alive : List Int) (pid : Int) (serial : Nat),
      start.processes = [] → ProcessRun start created alive state → pid ∈ alive → latest created pid = some serial →
        RecordsStatus state pid serial) ∧
    ∃ state, ProcessRun (mrshStateCreate [] Machine.isolated) [(5, 1), (5, 0)] [5] state ∧
      (Leaf.run (updateProcess 5 9) state).state.processes.map (fun proc => (proc.serial, proc.terminated, proc.stat)) =
        [(0, true, 9), (1, false, 0)] := by
  have flags : (Leaf.run (updateProcess 5 9) reusedShell).state.processes.map
      (fun proc => (proc.serial, proc.terminated, proc.stat)) = [(0, true, 9), (1, false, 0)] := by decide +kernel
  constructor
  · intro always
    have records := always _ _ _ _ _ _ rfl reusedShell_run List.mem_cons_self rfl
    obtain ⟨after, proc, ended, found, flagged, -⟩ := records.recorded 9 rfl
    rw [ended] at flags
    have listed := List.mem_map_of_mem (f := fun proc : Process => (proc.serial, proc.terminated, proc.stat))
      (List.mem_of_find?_eq_some found)
    have here : proc.serial = 1 := by simpa using List.find?_some found
    rw [show after.processes.map _ = _ from flags, here, flagged] at listed
    simp at listed
  · exact ⟨reusedShell, reusedShell_run, flags⟩

end Mrsh
