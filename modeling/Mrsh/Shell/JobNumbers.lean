import Mathlib.Data.Int.Interval
import Mrsh.Data.Stops
import Mrsh.Numerals
import Mrsh.Shell.ForegroundJob
import Mrsh.Shell.JobEntries

namespace Mrsh

open Mrsh.Data

/-! # The numbers of the jobs

A new job gets the number behind the largest one of the live jobs. Jobs are removed one at a time, and by the look at
all jobs that has terminated.
-/

/-- A job and its number. -/
def Job.number (job : Job) : Nat × Int := (job.serial, job.jobId)

/-- The numbers are positive and increase along the list, and each is one of `int`. -/
structure NumbersIncrease (jobs : List Job) : Prop where
  increasing : (jobs.map (·.jobId)).Pairwise (· < ·)
  positive : ∀ job ∈ jobs, 0 < job.jobId
  bounded : ∀ job ∈ jobs, job.jobId ≤ intMax

namespace NumbersIncrease

variable {jobs : List Job}

theorem unique (increase : NumbersIncrease jobs) {first second : Job} (member : first ∈ jobs) (again : second ∈ jobs)
    (same : first.jobId = second.jobId) : first = second := by
  have distinct : (jobs.map (·.jobId)).Nodup := increase.increasing.imp fun less => Int.ne_of_lt less
  exact List.inj_on_of_nodup_map distinct member again same

theorem filter (increase : NumbersIncrease jobs) (keep : Job → Bool) : NumbersIncrease (jobs.filter keep) where
  increasing := increase.increasing.sublist (List.Sublist.map _ List.filter_sublist)
  positive job member := increase.positive job (List.mem_filter.mp member).1
  bounded job member := increase.bounded job (List.mem_filter.mp member).1

theorem length_le (increase : NumbersIncrease jobs) : (jobs.length : Int) ≤ intMax := by
  have distinct : (jobs.map (·.jobId)).Nodup := increase.increasing.imp fun less => Int.ne_of_lt less
  have among : (jobs.map (·.jobId)).toFinset ⊆ Finset.Icc 1 intMax := by
    intro id member
    obtain ⟨job, listed, rfl⟩ := List.mem_map.mp (List.mem_toFinset.mp member)
    exact Finset.mem_Icc.mpr ⟨increase.positive job listed, increase.bounded job listed⟩
  have fewer := Finset.card_le_card among
  rw [List.toFinset_card_of_nodup distinct, List.length_map, Int.card_Icc] at fewer
  unfold intMax at fewer ⊢
  omega

end NumbersIncrease

/-- The next number is larger than all others, and no larger than needed. -/
theorem nextJobId_spec (jobs : List Job) :
    1 ≤ nextJobId jobs ∧ (∀ job ∈ jobs, job.jobId < nextJobId jobs) ∧
      ∀ bound, 1 ≤ bound → (∀ job ∈ jobs, job.jobId < bound) → nextJobId jobs ≤ bound := by
  have folded : ∀ (jobs : List Job) (id : Int),
      let next := jobs.foldl (fun id job => if id < job.jobId + 1 then job.jobId + 1 else id) id
      id ≤ next ∧ (∀ job ∈ jobs, job.jobId < next) ∧
        ∀ bound, id ≤ bound → (∀ job ∈ jobs, job.jobId < bound) → next ≤ bound := by
    intro jobs
    induction jobs with
    | nil => exact fun id => ⟨Int.le_refl id, nofun, fun bound least _ => least⟩
    | cons job jobs ih =>
        intro id
        obtain ⟨least, above, tight⟩ := ih (if id < job.jobId + 1 then job.jobId + 1 else id)
        have taken : id ≤ (if id < job.jobId + 1 then job.jobId + 1 else id) ∧
            job.jobId < (if id < job.jobId + 1 then job.jobId + 1 else id) := by
          split <;> omega
        refine ⟨Int.le_trans taken.1 least, ?_, fun bound started below => ?_⟩
        · rintro other (_ | ⟨_, member⟩)
          · exact Int.lt_of_lt_of_le taken.2 least
          · exact above other member
        · refine tight bound ?_ fun other member => below other (List.mem_cons_of_mem _ member)
          have first := below job List.mem_cons_self
          split <;> omega
  exact folded jobs 1

theorem NumbersIncrease.of_numbers {before after : List Job} (same : after.map Job.number = before.map Job.number)
    (increase : NumbersIncrease before) : NumbersIncrease after := by
  have ids : after.map (·.jobId) = before.map (·.jobId) := by
    have second := congrArg (List.map Prod.snd) same
    rw [List.map_map, List.map_map] at second
    exact second
  have listed : ∀ job ∈ after, ∃ old ∈ before, old.jobId = job.jobId := by
    intro job member
    have among : job.jobId ∈ after.map (·.jobId) := List.mem_map_of_mem member
    rw [ids] at among
    exact List.mem_map.mp among
  refine ⟨?_, fun job member => ?_, fun job member => ?_⟩
  · rw [ids]
    exact increase.increasing
  · obtain ⟨old, had, same⟩ := listed job member
    rw [← same]
    exact increase.positive old had
  · obtain ⟨old, had, same⟩ := listed job member
    rw [← same]
    exact increase.bounded old had

section

variable {World : Type}

/-- The table of the jobs is in order, and every job was created once. -/
structure JobsNumbered (state : Shell World) : Prop where
  increase : NumbersIncrease state.jobs
  once : (state.jobs.map (·.serial)).Nodup
  created : ∀ job ∈ state.jobs, job.serial < state.nextSerial

/-- The jobs and their numbers stay. New objects may be created. -/
structure SameNumbers (before after : Shell World) : Prop where
  jobs : after.jobs.map Job.number = before.jobs.map Job.number
  serials : before.nextSerial ≤ after.nextSerial

theorem SameNumbers.numbered {before after : Shell World} (same : SameNumbers before after)
    (numbered : JobsNumbered before) : JobsNumbered after := by
  have serials : after.jobs.map (·.serial) = before.jobs.map (·.serial) := by
    have first := congrArg (List.map Prod.fst) same.jobs
    rw [List.map_map, List.map_map] at first
    exact first
  refine ⟨numbered.increase.of_numbers same.jobs, serials ▸ numbered.once, fun job member => ?_⟩
  have among : job.serial ∈ after.jobs.map (·.serial) := List.mem_map_of_mem member
  rw [serials] at among
  obtain ⟨old, had, same'⟩ := List.mem_map.mp among
  rw [← same']
  exact Nat.lt_of_lt_of_le (numbered.created old had) same.serials

/-! ## New jobs -/

theorem jobCreate_done {node : JobNode} {serial : Nat} {state after : Shell World}
    (ended : Leaf.run (jobCreate node) state = .done serial after) :
    (∀ job ∈ state.jobs, job.jobId < intMax) ∧ serial = state.nextSerial ∧ after.nextSerial = state.nextSerial + 1 ∧
      ∃ job, after.jobs = state.jobs ++ [job] ∧ job.serial = serial ∧ job.jobId = nextJobId state.jobs ∧
        job.pgid = -1 ∧ job.processes = [] := by
  rw [jobCreate, Leaf.run_gets_bind] at ended
  obtain ⟨_, checkedState, checked, creates⟩ := Leaf.run_bind_done.mp ended
  obtain ⟨small, sameState⟩ := assertThat_done checked
  obtain ⟨_, _, created, copies⟩ := Leaf.run_bind_done.mp creates
  subst sameState
  cases created
  obtain ⟨copy, _, copied, appends⟩ := Leaf.run_bind_done.mp copies
  obtain ⟨-, rfl⟩ := orCrash_done copied
  cases appends
  refine ⟨fun job member => ?_, rfl, rfl, _, rfl, rfl, rfl, rfl, rfl⟩
  exact of_decide_eq_true (List.all_eq_true.mp small job member)

theorem jobCreate_numbered {node : JobNode} {serial : Nat} {state after : Shell World} (numbered : JobsNumbered state)
    (ended : Leaf.run (jobCreate node) state = .done serial after) : JobsNumbered after := by
  obtain ⟨small, rfl, created, job, jobs, serialNew, idNew, -⟩ := jobCreate_done ended
  obtain ⟨positive, above, tight⟩ := nextJobId_spec state.jobs
  have fresh : state.nextSerial ∉ state.jobs.map (·.serial) := by
    intro member
    obtain ⟨old, had, same⟩ := List.mem_map.mp member
    exact Nat.ne_of_lt (numbered.created old had) same
  constructor
  · rw [jobs]
    constructor
    · rw [List.map_append, List.pairwise_append]
      refine ⟨numbered.increase.increasing, List.pairwise_singleton _ _, ?_⟩
      intro id member last single
      obtain ⟨old, had, rfl⟩ := List.mem_map.mp member
      obtain rfl := List.mem_singleton.mp single
      change old.jobId < job.jobId
      rw [idNew]
      exact above old had
    · intro other member
      rcases List.mem_append.mp member with old | new
      · exact numbered.increase.positive other old
      · obtain rfl := List.mem_singleton.mp new
        rw [idNew]
        exact positive
    · intro other member
      rcases List.mem_append.mp member with old | new
      · exact numbered.increase.bounded other old
      · obtain rfl := List.mem_singleton.mp new
        rw [idNew]
        exact tight intMax (by decide) small
  · rw [jobs, List.map_append, List.nodup_append]
    refine ⟨numbered.once, List.nodup_singleton _, ?_⟩
    intro first member second single
    obtain rfl := List.mem_singleton.mp single
    change first ≠ job.serial
    rw [serialNew]
    exact fun same => fresh (same ▸ member)
  · rw [jobs, created]
    intro other member
    rcases List.mem_append.mp member with old | new
    · exact Nat.lt_succ_of_lt (numbered.created other old)
    · obtain rfl := List.mem_singleton.mp new
      rw [serialNew]
      exact Nat.lt_succ_self _

theorem SameEntries.numbers {before after : Shell World} (same : SameEntries before after) : SameNumbers before after :=
  ⟨same.jobs_map Job.number fun _ => rfl, Nat.le_of_eq same.serials.symm⟩

/-! ## Removed jobs -/

theorem mapM_of_more {α β : Type} {fewer more : α → Option β}
    (implied : ∀ value result, fewer value = some result → more value = some result) {values : List α}
    {results : List β} (found : values.mapM fewer = some results) :
    values.mapM more = some results := by
  induction values generalizing results with
  | nil => exact found
  | cons value values ih =>
      simp only [List.mapM_cons, Option.bind_eq_bind, Option.bind_eq_some_iff, Option.pure_def,
        Option.some.injEq] at found ⊢
      obtain ⟨result, first, others, rest, rfl⟩ := found
      exact ⟨result, implied value result first, others, ih rest, rfl⟩

theorem find_filter_serial {α : Type} {entries : List α} {serialOf : α → Nat} {gone serial : Nat} {entry : α}
    (found : (entries.filter (serialOf · != gone)).find? (serialOf · == serial) = some entry) :
    entries.find? (serialOf · == serial) = some entry := by
  have here : serialOf entry = serial := by simpa using List.find?_some found
  have kept : serialOf entry ≠ gone := by simpa using (List.mem_filter.mp (List.mem_of_find?_eq_some found)).2
  rw [List.find?_filter] at found
  rw [← found]
  congr 1
  funext other
  by_cases same : serialOf other = serial
  · have stays : (serialOf other != gone) = true := by
      rw [same, ← here]
      simpa using kept
    rw [stays]
    simp [same]
  · have elsewhere : (serialOf other == serial) = false := by simpa using same
    simp [elsewhere]

/-- Every process that is found was found before. -/
def FewerProcesses (before after : Shell World) : Prop :=
  ∀ serial proc, after.processes.find? (·.serial == serial) = some proc →
    before.processes.find? (·.serial == serial) = some proc

theorem destroyProcesses_done {serials : List Nat} {state after : Shell World}
    (ended : Leaf.run (destroyProcesses serials) state = .done () after) :
    after.jobs = state.jobs ∧ after.nextSerial = state.nextSerial ∧
      after.processes = state.processes.filter (·.serial ∉ serials) := by
  induction serials generalizing state with
  | nil =>
      cases ended
      exact ⟨rfl, rfl, by simp⟩
  | cons serial serials ih =>
      obtain ⟨_, between, destroys, rest⟩ := Leaf.run_bind_done.mp ended
      obtain ⟨proc, _, finds, removes⟩ := Leaf.run_bind_done.mp destroys
      rw [findProcess, Leaf.run_gets_bind] at finds
      obtain ⟨-, rfl⟩ := orCrash_done finds
      cases removes
      obtain ⟨jobs, serialsKept, processes⟩ := ih rest
      refine ⟨jobs, serialsKept, ?_⟩
      rw [processes]
      change List.filter _ (List.filter _ _) = _
      rw [List.filter_filter]
      refine List.filter_congr fun other _ => ?_
      by_cases here : other.serial = serial <;> simp [here]

theorem FewerProcesses.of_filter {before after : Shell World} {serials : List Nat}
    (processes : after.processes = before.processes.filter (·.serial ∉ serials)) : FewerProcesses before after := by
  intro serial proc found
  rw [processes] at found
  have here : proc.serial = serial := by simpa using List.find?_some found
  have kept : proc.serial ∉ serials := by simpa using (List.mem_filter.mp (List.mem_of_find?_eq_some found)).2
  rw [List.find?_filter] at found
  rw [← found]
  congr 1
  funext other
  by_cases same : other.serial = serial
  · have stays : other.serial ∉ serials := by rwa [same, ← here]
    simp [same, same ▸ stays]
  · simp [same]

/-- A status that a job has without another job, and with fewer processes, it had before. -/
theorem polled_of_removed {before after : Shell World} {gone serial : Nat} {status : Int}
    (jobs : after.jobs = before.jobs.filter (·.serial != gone)) (fewer : FewerProcesses before after)
    (polls : polled after serial = some status) : polled before serial = some status := by
  unfold polled at polls ⊢
  simp only [Option.bind_eq_bind, Option.bind_eq_some_iff] at polls ⊢
  obtain ⟨job, found, procs, listed, looped⟩ := polls
  rw [jobs] at found
  exact ⟨job, find_filter_serial found, procs, mapM_of_more (fun process => fewer process) listed, looped⟩

variable [System World]

/-- The job and its processes are gone. -/
structure JobRemoved (serial : Nat) (before after : Shell World) : Prop where
  jobs : after.jobs.map Job.entry = (before.jobs.map Job.entry).filter (·.serial != serial)
  processes : ∃ job ∈ before.jobs, job.serial = serial ∧
    after.processes.map Process.entry = (before.processes.map Process.entry).filter (·.serial ∉ job.processes)
  serials : after.nextSerial = before.nextSerial
  polls : ∀ other status, polled after other = some status → polled before other = some status

omit [System World] in
theorem JobRemoved.numbers {serial : Nat} {before after : Shell World} (removed : JobRemoved serial before after) :
    after.jobs.map Job.number = (before.jobs.map Job.number).filter (·.1 != serial) := by
  have mapped := congrArg (List.map Job.number) removed.jobs
  rw [List.filter_map, List.map_map, List.map_map] at mapped
  rw [List.filter_map]
  exact mapped

theorem jobDestroy_done {serial : Nat} {state after : Shell World}
    (ended : Leaf.run (jobDestroy serial) state = .done () after) : JobRemoved serial state after := by
  obtain ⟨job, _, finds, asks⟩ := Leaf.run_bind_done.mp ended
  obtain ⟨found, unchanged⟩ := findJob_done finds
  have here : job.serial = serial := by simpa using List.find?_some found
  rw [unchanged, Leaf.run_gets_bind] at asks
  have drops : ∀ {between : Shell World}, SameEntries state between → Lowers state between →
      Leaf.run (do
        update fun core => { core with jobs := core.jobs.filter (·.serial != serial) }
        destroyProcesses job.processes) between = .done () after → JobRemoved serial state after := by
    intro between same lowers dropped
    obtain ⟨_, _, removes, destroys⟩ := Leaf.run_bind_done.mp dropped
    cases removes
    obtain ⟨jobs, serials, processes⟩ := destroyProcesses_done destroys
    refine ⟨?_, ⟨job, List.mem_of_find?_eq_some found, here, ?_⟩, serials.trans same.serials,
      fun other status polls => ?_⟩
    · rw [jobs, ← same.jobs, List.filter_map]
      rfl
    · rw [processes, ← same.processes, List.filter_map]
      rfl
    · rw [← lowers.polled other]
      exact polled_of_removed jobs (.of_filter processes) polls
  split at asks
  · obtain ⟨_, between, moves, dropped⟩ := Leaf.run_bind_done.mp asks
    exact drops ((KeepsEntries.jobSetForeground serial false false).done moves)
      (Run.Respects.done (jobSetForeground_background_lowers serial) moves) dropped
  · exact drops (Std.Refl.refl _) (Std.Refl.refl _) asks

omit [System World] in
theorem JobsNumbered.removed {before after : Shell World} {serial : Nat} (numbered : JobsNumbered before)
    (jobs : after.jobs.map Job.number = (before.jobs.map Job.number).filter (·.1 != serial))
    (serials : after.nextSerial = before.nextSerial) : JobsNumbered after := by
  let dropped : Shell World := { before with jobs := before.jobs.filter (·.serial != serial) }
  have droppedNumbered : JobsNumbered dropped := by
    refine ⟨numbered.increase.filter _, ?_, fun job member => numbered.created job (List.mem_filter.mp member).1⟩
    exact numbered.once.sublist (List.Sublist.map _ List.filter_sublist)
  have same : SameNumbers dropped after := by
    refine ⟨?_, Nat.le_of_eq serials.symm⟩
    rw [jobs, List.filter_map]
    rfl
  exact same.numbered droppedNumbered

/-! ## The look at all jobs -/

/-- The job has ended: its status is an exit status. -/
def terminated (state : Shell World) (serial : Nat) : Bool := (polled state serial).any fun status => 0 ≤ status

theorem showJob_lowers (serial : Nat) (current previous : Option Nat) (r : Bool) :
    OnlyLowers (showJob serial current previous r : Leaf World Unit) := by
  have states : OnlyLowers (jobStateStr serial r : Leaf World Str) := by
    refine .bind (jobPoll_within serial) fun status => .bind (findJob_within serial) fun job =>
      .bind (jobProcesses_within job) fun procs => .ite (.pure _) (.ite (.pure _) (.ite (.pure _) ?_))
    cases procs.head? with
    | none => exact .pure _
    | some proc => exact .ite (.pure _) (.pure _)
  exact .bind (findJob_within serial) fun _ => .bind (.orCrash _) fun _ => .bind states fun _ => call_lowers _

theorem showPending_lowers (job : Job) (current previous : Option Nat) (r : Bool) :
    OnlyLowers (showPending job current previous r : Leaf World Unit) :=
  .bind (.gets _) fun _ => .ite (.bind (showJob_lowers job.serial current previous r) fun _ =>
    modifyJob_lowers job.serial fun _ => rfl) (.pure _)

/-- The index behind an index below the size, and the same index after it went back by one. -/
theorem index_forward {i : Nat} (small : i + 1 < sizeModulus) : (i + 1) % sizeModulus = i + 1 := Nat.mod_eq_of_lt small

theorem index_back {i : Nat} (small : i < sizeModulus) :
    ((i + sizeModulus - 1) % sizeModulus + 1) % sizeModulus = i := by
  unfold sizeModulus at small ⊢
  omega

theorem drop_filter_key {numbers : List (Nat × Int)} {i : Nat} {number : Nat × Int} (found : numbers[i]? = some number)
    (once : (numbers.map Prod.fst).Nodup) :
    numbers.filter (·.1 != number.1) = numbers.take i ++ numbers.drop (i + 1) := by
  obtain ⟨inside, here⟩ := List.getElem?_eq_some_iff.mp found
  have split : numbers = numbers.take i ++ number :: numbers.drop (i + 1) := by
    rw [← here, List.getElem_cons_drop, List.take_append_drop]
  rw [split, List.map_append, List.map_cons, List.nodup_append, List.nodup_cons] at once
  obtain ⟨-, ⟨notBehind, -⟩, apart⟩ := once
  have front : ∀ other ∈ numbers.take i, (other.1 != number.1) = true := by
    intro other member
    simpa using apart other.1 (List.mem_map_of_mem member) number.1 List.mem_cons_self
  have back : ∀ other ∈ numbers.drop (i + 1), (other.1 != number.1) = true := by
    intro other member
    have different : other.1 ≠ number.1 := fun same => notBehind (same ▸ List.mem_map_of_mem member)
    simpa using different
  conv => lhs; rw [split]
  rw [List.filter_append, List.filter_eq_self.mpr front, List.filter_cons, if_neg (by simp),
    List.filter_eq_self.mpr back]

/-- The loop removes the jobs from its index on that have terminated, and no other. -/
theorem destroyTerminatedLoop_done {current previous : Option Nat} {r : Bool} {fuel i : Nat} {state after : Shell World}
    (numbered : JobsNumbered state) (inside : i ≤ state.jobs.length)
    (ended : Leaf.run (destroyTerminatedLoop current previous r fuel i) state = .done () after) :
    JobsNumbered after ∧ (∀ number ∈ (state.jobs.map Job.number).drop i, (polled state number.1).isSome) ∧
      after.jobs.map Job.number = (state.jobs.map Job.number).take i ++
        ((state.jobs.map Job.number).drop i).filter fun number => !terminated state number.1 := by
  induction fuel generalizing i state with
  | zero => cases ended
  | succ fuel ih =>
      rw [destroyTerminatedLoop, Leaf.run_gets_bind] at ended
      have few := numbered.increase.length_le
      cases found : state.jobs[i]? with
      | none =>
          have past : state.jobs.length ≤ i := List.getElem?_eq_none_iff.mp found
          rw [found] at ended
          obtain ⟨-, rfl⟩ := Outcome.done.inj ended
          have beyond : (state.jobs.map Job.number).length ≤ i := by rwa [List.length_map]
          rw [List.drop_eq_nil_of_le beyond, List.take_of_length_le beyond]
          exact ⟨numbered, nofun, (List.append_nil _).symm⟩
      | some job =>
          obtain ⟨below, here⟩ := List.getElem?_eq_some_iff.mp found
          have numberFound : (state.jobs.map Job.number)[i]? = some job.number := by rw [List.getElem?_map, found]; rfl
          have dropped : (state.jobs.map Job.number).drop i = job.number ::
            (state.jobs.map Job.number).drop (i + 1) := by
            obtain ⟨within, at_⟩ := List.getElem?_eq_some_iff.mp numberFound
            rw [← at_, List.getElem_cons_drop]
          have once : ((state.jobs.map Job.number).map Prod.fst).Nodup := by
            rw [List.map_map]
            exact numbered.once
          have size : (i : Int) + 1 < sizeModulus := by
            unfold intMax at few
            unfold sizeModulus
            omega
          rw [found] at ended
          obtain ⟨status, _, polls, asks⟩ := Leaf.run_bind_done.mp ended
          obtain ⟨isStatus, unchanged⟩ := jobPoll_done polls
          rw [unchanged] at asks
          obtain ⟨_, shown, shows, rest⟩ := Leaf.run_bind_done.mp asks
          have same := (KeepsEntries.showPending job current previous r).done shows
          have lowers := Run.Respects.done (showPending_lowers job current previous r) shows
          have shownNumbered := same.numbers.numbered numbered
          have shownNumbers := same.numbers.jobs
          have shownLength : shown.jobs.length = state.jobs.length := by
            rw [← List.length_map Job.number, shownNumbers, List.length_map]
          by_cases done : 0 ≤ status
          · rw [if_pos done] at rest
            obtain ⟨_, removed, removes, loops⟩ := Leaf.run_bind_done.mp rest
            have gone := jobDestroy_done removes
            have numbers := gone.numbers
            rw [index_back (by omega)] at loops
            have removal := numbers
            rw [shownNumbers, show job.serial = job.number.1 from rfl, drop_filter_key numberFound once] at numbers
            have takes : (removed.jobs.map Job.number).take i = (state.jobs.map Job.number).take i := by
              rw [numbers, List.take_append_of_le_length (by rw [List.length_take, List.length_map]; omega),
                List.take_take,
                Nat.min_self]
            have drops : (removed.jobs.map Job.number).drop i = (state.jobs.map Job.number).drop (i + 1) := by
              rw [numbers, List.drop_append_of_le_length (by rw [List.length_take, List.length_map]; omega)]
              rw [List.drop_take, Nat.sub_self, List.take_zero, List.nil_append]
            have room : i ≤ removed.jobs.length := by
              rw [← List.length_map Job.number, numbers, List.length_append, List.length_take, List.length_map]
              omega
            obtain ⟨afterNumbered, polledLater, numbersLater⟩ := ih
              (shownNumbered.removed removal gone.serials) room loops
            rw [drops] at polledLater numbersLater
            rw [takes] at numbersLater
            have sameStatus : ∀ number ∈ (state.jobs.map Job.number).drop (i + 1),
                polled state number.1 = polled removed number.1 := by
              intro number member
              obtain ⟨later, isLater⟩ := Option.isSome_iff_exists.mp (polledLater number member)
              rw [isLater, ← lowers.polled]
              exact gone.polls _ _ isLater
            refine ⟨afterNumbered, ?_, ?_⟩
            · rw [dropped]
              rintro number (_ | ⟨_, member⟩)
              · exact Option.isSome_iff_exists.mpr ⟨status, isStatus⟩
              · rw [sameStatus number member]
                exact polledLater number member
            · have gone : terminated state job.number.1 = true := by
                change (polled state job.serial).any _ = true
                rw [isStatus]
                simpa using done
              rw [numbersLater, dropped, List.filter_cons, if_neg (by simp [gone])]
              congr 1
              refine List.filter_congr fun number member => ?_
              rw [terminated, terminated, sameStatus number member]
          · rw [if_neg done, index_forward (by omega)] at rest
            obtain ⟨afterNumbered, polledLater, numbersLater⟩ := ih shownNumbered (by omega) rest
            have sameStatus : ∀ serial, polled shown serial = polled state serial := lowers.polled
            have statuses : ∀ serial, terminated shown serial = terminated state serial := by
              intro serial
              rw [terminated, terminated, sameStatus]
            simp only [shownNumbers, sameStatus, statuses] at polledLater numbersLater
            refine ⟨afterNumbered, ?_, ?_⟩
            · rw [dropped]
              rintro number (_ | ⟨_, member⟩)
              · exact Option.isSome_iff_exists.mpr ⟨status, isStatus⟩
              · exact polledLater number member
            · have stays : terminated state job.number.1 = false := by
                change (polled state job.serial).any _ = false
                rw [isStatus]
                simpa using done
              obtain ⟨within, at_⟩ := List.getElem?_eq_some_iff.mp numberFound
              rw [numbersLater, dropped, List.filter_cons, if_pos (by simp [stays]), List.take_add_one, numberFound]
              simp

/-! ## The loop ends -/

/-- The program does not run out of fuel. -/
abbrev NeverExhausted {α : Type} (prog : Leaf World α) : Prop := prog.StopsOnly (· ≠ Ending.outOfFuel)

namespace NeverExhausted

variable {α : Type}

omit [System World] in
theorem gets (read : Shell World → α) : NeverExhausted (gets read) := fun _ => trivial

omit [System World] in
theorem update (change : Core World → Core World) : NeverExhausted (update change) := fun _ => trivial

omit [System World] in
theorem call (request : World → α × World) : NeverExhausted (call request) := fun _ _ => trivial

omit [System World] in
theorem orCrash (value : Option α) : NeverExhausted (orCrash value : Leaf World α) := by
  cases value with
  | none => exact .stop nofun
  | some value => exact .pure _

omit [System World] in
theorem assertThat (condition : Bool) : NeverExhausted (assertThat condition : Leaf World Unit) :=
  .ite (.pure _) (.stop nofun)

omit [System World] in
theorem findJob (serial : Nat) : NeverExhausted (findJob serial : Leaf World Job) := .bind (gets _) fun _ => orCrash _

omit [System World] in
theorem findProcess (serial : Nat) : NeverExhausted (findProcess serial : Leaf World Process) :=
  .bind (gets _) fun _ => orCrash _

omit [System World] in
theorem jobProcesses (job : Job) : NeverExhausted (jobProcesses job : Leaf World (List Process)) := .mapM findProcess _

omit [System World] in
theorem jobPoll (serial : Nat) : NeverExhausted (jobPoll serial : Leaf World Int) :=
  .bind (findJob serial) fun job => .bind (jobProcesses job) fun _ => orCrash _

omit [System World] in
theorem jobQueueNotification (serial : Nat) : NeverExhausted (jobQueueNotification serial : Leaf World Unit) :=
  .bind (jobPoll serial) fun _ => .bind (gets _) fun _ => update _

theorem jobToBackground (job : Job) : NeverExhausted (jobToBackground job : Leaf World Unit) := by
  have leaves : NeverExhausted (do
      let termModes ← Mrsh.gets (·.termModes)
      let _ ← Mrsh.call (System.tcsetattr termModes)
      setForegroundJob none : Leaf World Unit) := .bind (gets _) fun _ => .bind (call _) fun _ => update _
  refine .bind (gets _) fun _ => .ite (.bind (gets _) fun _ => .bind (call _) fun _ => .bind (call _) fun reply => ?_)
    (.pure _)
  cases reply with
  | error errno => exact leaves
  | ok termModes => exact .bind (update _) fun _ => leaves

theorem jobSetForeground_background (serial : Nat) :
    NeverExhausted (jobSetForeground serial false false : Leaf World Bool) := by
  refine .bind (findJob serial) fun job => .bind (assertThat _) fun _ => .bind (gets _) fun _ =>
    .ite (.bind (jobPoll serial) fun status => ?_) (.pure _)
  simp only [Bool.false_and, Bool.false_eq_true, if_false]
  exact .bind (jobToBackground job) fun _ => .bind (jobQueueNotification serial) fun _ => .pure _

theorem jobDestroy (serial : Nat) : NeverExhausted (jobDestroy serial : Leaf World Unit) := by
  have destroys : ∀ serials, NeverExhausted (destroyProcesses serials : Leaf World Unit) := by
    intro serials
    induction serials with
    | nil => exact .pure _
    | cons serial serials ih => exact .bind (.bind (findProcess serial) fun _ => update _) fun _ => ih
  refine .bind (findJob serial) fun job => .bind (gets _) fun _ => ?_
  have drops : NeverExhausted (do
      Mrsh.update fun core => { core with jobs := core.jobs.filter (·.serial != serial) }
      destroyProcesses job.processes : Leaf World Unit) := .bind (update _) fun _ => destroys _
  exact .ite (.bind (jobSetForeground_background serial) fun _ => drops) drops

theorem showPending (job : Job) (current previous : Option Nat) (r : Bool) :
    NeverExhausted (showPending job current previous r : Leaf World Unit) := by
  have states : NeverExhausted (jobStateStr job.serial r : Leaf World Str) := by
    refine .bind (jobPoll _) fun status => .bind (findJob _) fun job =>
      .bind (jobProcesses job) fun procs => .ite (.pure _) (.ite (.pure _) (.ite (.pure _) ?_))
    cases procs.head? with
    | none => exact .pure _
    | some proc => exact .ite (.pure _) (.pure _)
  have shows : NeverExhausted (showJob job.serial current previous r : Leaf World Unit) :=
    .bind (findJob _) fun _ => .bind (orCrash _) fun _ => .bind states fun _ => call _
  exact .bind (gets _) fun _ => .ite (.bind shows fun _ => update _) (.pure _)

end NeverExhausted

/-- One round for each job that is left, and one to find the end, are enough. -/
theorem destroyTerminatedLoop_ends {current previous : Option Nat} {r : Bool} {fuel i : Nat}
    {state after : Shell World} {reason : Ending} (numbered : JobsNumbered state)
    (enough : state.jobs.length < fuel + i)
    (ended : Leaf.run (destroyTerminatedLoop current previous r fuel i) state = .stopped reason after)
    (inside : i ≤ state.jobs.length) :
    reason ≠ .outOfFuel := by
  induction fuel generalizing i state with
  | zero => omega
  | succ fuel ih =>
      rw [destroyTerminatedLoop, Leaf.run_gets_bind] at ended
      have few := numbered.increase.length_le
      cases found : state.jobs[i]? with
      | none =>
          rw [found] at ended
          cases ended
      | some job =>
          obtain ⟨below, here⟩ := List.getElem?_eq_some_iff.mp found
          have size : (i : Int) + 1 < sizeModulus := by
            unfold intMax at few
            unfold sizeModulus
            omega
          rw [found] at ended
          rcases Leaf.run_bind_stopped.mp ended with crashed | ⟨status, polledState, polls, shows⟩
          · exact (NeverExhausted.jobPoll _).run_stopped crashed
          · obtain ⟨-, rfl⟩ := jobPoll_done polls
            rcases Leaf.run_bind_stopped.mp shows with crashed | ⟨_, shown, showed, rest⟩
            · exact (NeverExhausted.showPending job current previous r).run_stopped crashed
            · have same := (KeepsEntries.showPending job current previous r).done showed
              have shownNumbered := same.numbers.numbered numbered
              have shownLength : shown.jobs.length = polledState.jobs.length := by
                rw [← List.length_map Job.number, same.numbers.jobs, List.length_map]
              split at rest
              · rcases Leaf.run_bind_stopped.mp rest with crashed | ⟨_, removed, removes, loops⟩
                · exact (NeverExhausted.jobDestroy job.serial).run_stopped crashed
                · have gone := jobDestroy_done removes
                  have numberFound : (polledState.jobs.map Job.number)[i]? = some job.number := by
                    rw [List.getElem?_map, found]
                    rfl
                  have once : ((polledState.jobs.map Job.number).map Prod.fst).Nodup := by
                    rw [List.map_map]
                    exact numbered.once
                  have shorter : removed.jobs.length + 1 = polledState.jobs.length := by
                    have dropped := drop_filter_key numberFound once
                    rw [← List.length_map Job.number, gone.numbers, same.numbers.jobs]
                    change (List.filter (fun number : Nat × Int => number.1 != job.number.1) _).length + 1 = _
                    rw [dropped, List.length_append, List.length_take, List.length_drop, List.length_map]
                    omega
                  rw [index_back (by omega)] at loops
                  exact ih (shownNumbered.removed gone.numbers gone.serials) (by omega) loops (by omega)
              · rw [index_forward (by omega)] at rest
                exact ih shownNumbered (by omega) rest (by omega)

/-- What is left after the look at all jobs, whose statuses were brought up to date before. -/
theorem mrshDestroyTerminatedJobs_done {fuel : Nat} {state after : Shell World} (numbered : JobsNumbered state)
    (ended : Leaf.run (mrshDestroyTerminatedJobs fuel) state = .done () after) :
    ∃ world ok refreshed, Leaf.run (refreshJobsStatus fuel : Leaf World Bool)
      { state with world } = .done ok refreshed ∧
      refreshed.jobs.map Job.number = state.jobs.map Job.number ∧
      (∀ job ∈ refreshed.jobs, (polled refreshed job.serial).isSome) ∧ JobsNumbered after ∧
      after.jobs.map Job.number = (refreshed.jobs.map Job.number).filter fun number =>
        !terminated refreshed number.1 := by
  have looksUp : ∀ index msg, Within Eq (recentJob false index msg : Leaf World (Option Nat)) :=
    fun index msg => recentJob_within index msg
  obtain ⟨current, first, finds, restFirst⟩ := Leaf.run_bind_done.mp ended
  have sameFirst : state = first := (looksUp 0 _).done finds
  obtain ⟨previous, second, findsAgain, restSecond⟩ := Leaf.run_bind_done.mp restFirst
  have sameSecond : first = second := (looksUp 1 _).done findsAgain
  subst sameFirst sameSecond
  obtain ⟨random, _, asks, restAsked⟩ := Leaf.run_bind_done.mp restSecond
  cases asks
  obtain ⟨ok, refreshed, refreshes, restLoop⟩ := Leaf.run_bind_done.mp restAsked
  rw [Leaf.run_gets_bind] at restLoop
  have numbers := ((KeepsEntries.refreshJobsStatus fuel).done refreshes).numbers
  have refreshedNumbered : JobsNumbered refreshed :=
    @SameNumbers.numbered _ state _ ⟨numbers.jobs, numbers.serials⟩ numbered
  obtain ⟨afterNumbered, isPolled, left⟩ := destroyTerminatedLoop_done refreshedNumbered (Nat.zero_le _) restLoop
  refine ⟨_, ok, refreshed, refreshes, numbers.jobs, fun job member => ?_, afterNumbered, left⟩
  exact isPolled job.number (List.mem_map_of_mem member)

/-! ## Runs -/

inductive JobCall where
  | create (node : JobNode)
  | destroy (serial : Nat)
  | destroyTerminated (fuel : Nat)

def JobCall.prog : JobCall → Leaf World Unit
  | .create node => do
      let _ ← jobCreate node
  | .destroy serial => jobDestroy serial
  | .destroyTerminated fuel => mrshDestroyTerminatedJobs fuel

theorem JobCall.numbered {call : JobCall} {state after : Shell World} (numbered : JobsNumbered state)
    (ended : Leaf.run call.prog state = .done () after) : JobsNumbered after := by
  cases call with
  | create node =>
      obtain ⟨serial, created, creates, returns⟩ := Leaf.run_bind_done.mp ended
      cases returns
      exact jobCreate_numbered numbered creates
  | destroy serial =>
      have gone := jobDestroy_done ended
      exact numbered.removed gone.numbers gone.serials
  | destroyTerminated fuel =>
      obtain ⟨_, _, _, _, _, _, after, _⟩ := mrshDestroyTerminatedJobs_done numbered ended
      exact after

/-- The states that calls reach, with anything else that keeps the jobs and their numbers in between. -/
inductive JobRun (start : Shell World) : Shell World → Prop where
  | start : JobRun start start
  | between {state after : Shell World} (reached : JobRun start state) (same : SameNumbers state after) :
    JobRun start after
  | call {state after : Shell World} (reached : JobRun start state) (call : JobCall)
      (ended : Leaf.run call.prog state = .done () after) : JobRun start after

theorem JobRun.numbered {start state : Shell World} (reached : JobRun start state) (numbered : JobsNumbered start) :
    JobsNumbered state := by
  induction reached with
  | start => exact numbered
  | between _ same ih => exact same.numbered ih
  | call _ _ ended ih => exact JobCall.numbered ih ended

/-! ## The look-up by number -/

theorem jobById_number {n : Nat} (small : (n : Int) ≤ intMax) (interactive : Bool) (state : Shell World) :
    ∃ world, Leaf.run (jobById ('%' :: decimal n) interactive) state =
      .done ((state.jobs.find? (·.jobId == (n : Int))).map (·.serial)) { state with world } := by
  obtain ⟨c, rest, digits⟩ := List.exists_cons_of_ne_nil (decimal_ne_nil n)
  have digit : c.isDigit = true := by
    refine decimal_digits n c ?_
    rw [digits]
    exact List.mem_cons_self
  have scanned := strtol_decimal n 10 (.inr rfl) (by unfold intMax at small; unfold longMax; omega)
  have fits : toInt32 n = n := toInt32_eq (by omega) (by unfold intMax at small; omega)
  have looks : jobById ('%' :: decimal n) interactive =
      (jobByNumber ('%' :: decimal n) (decimal n) interactive : Leaf World (Option Nat)) := by
    rw [digits]
    unfold jobById
    split
    · rename_i same
      cases same
      exact absurd digit (by decide)
    · rename_i same
      cases same
      exact absurd digit (by decide)
    · rename_i same
      cases same
      exact absurd digit (by decide)
    · rename_i same
      cases same
      rw [if_pos digit]
    · rename_i other
      exact absurd rfl (other c rest)
  rw [looks, jobByNumber, scanned]
  simp only [List.isEmpty_nil, Bool.not_true, Bool.false_eq_true, if_false, Leaf.run_bind, Leaf.run_gets,
    Outcome.andThen_done, fits]
  cases state.jobs.find? (·.jobId == (n : Int)) with
  | some job => exact ⟨state.world, rfl⟩
  | none =>
      cases interactive with
      | true => exact ⟨_, rfl⟩
      | false => exact ⟨state.world, rfl⟩

/-- The number finds the one job that has it. -/
def FindsByNumber (state : Shell World) : Prop :=
  ∀ (n : Nat) (interactive : Bool), (n : Int) ≤ intMax →
    ∃ found world, Leaf.run (jobById ('%' :: decimal n) interactive) state = .done found { state with world } ∧
      ∀ serial, found = some serial ↔ ∃ job ∈ state.jobs, job.serial = serial ∧ job.jobId = n

theorem JobsNumbered.findsByNumber {state : Shell World} (numbered : JobsNumbered state) : FindsByNumber state := by
  intro n interactive small
  obtain ⟨world, ended⟩ := jobById_number small interactive state
  refine ⟨_, world, ended, fun serial => ?_⟩
  rw [Option.map_eq_some_iff]
  constructor
  · rintro ⟨job, found, rfl⟩
    exact ⟨job, List.mem_of_find?_eq_some found, rfl, by simpa using List.find?_some found⟩
  · rintro ⟨job, member, rfl, same⟩
    have has : (state.jobs.find? (·.jobId == (n : Int))).isSome := List.find?_isSome.mpr ⟨job, member,
      by simpa using same⟩
    obtain ⟨other, found⟩ := Option.isSome_iff_exists.mp has
    have otherId : other.jobId = n := by simpa using List.find?_some found
    have one := numbered.increase.unique (List.mem_of_find?_eq_some found) member (otherId.trans same.symm)
    exact ⟨other, found, congrArg Job.serial one⟩

/-- The jobs that the look at all jobs leaves. -/
def RemovesTerminated (state : Shell World) : Prop :=
  ∀ fuel after, Leaf.run (mrshDestroyTerminatedJobs fuel) state = .done () after →
    ∃ world ok refreshed, Leaf.run (refreshJobsStatus fuel : Leaf World Bool)
      { state with world } = .done ok refreshed ∧
      refreshed.jobs.map Job.number = state.jobs.map Job.number ∧
      (∀ job ∈ refreshed.jobs, (polled refreshed job.serial).isSome) ∧
      after.jobs.map Job.number = (refreshed.jobs.filter fun job => !terminated refreshed job.serial).map Job.number

/-- In every state that the calls reach, the numbers of the jobs are positive and increase, the look-up by number finds
the one job that has it, and the look at all jobs removes exactly those that have terminated. Its loop ends. -/
theorem jobNumbers_increase (start state : Shell World) (noJobs : start.jobs = []) (reached : JobRun start state) :
    NumbersIncrease state.jobs ∧ FindsByNumber state ∧ RemovesTerminated state ∧
      ∀ current previous r reason stopped,
        Leaf.run (destroyTerminatedLoop current previous r (state.jobs.length + 1) 0) state = .stopped reason stopped →
        reason ≠ .outOfFuel := by
  have initially : JobsNumbered start := by
    refine ⟨⟨?_, ?_, ?_⟩, ?_, ?_⟩
    · rw [noJobs]
      exact .nil
    · rw [noJobs]
      exact nofun
    · rw [noJobs]
      exact nofun
    · rw [noJobs]
      exact .nil
    · rw [noJobs]
      exact nofun
  have numbered := reached.numbered initially
  refine ⟨numbered.increase, numbered.findsByNumber, ?_, ?_⟩
  · intro fuel after ended
    obtain ⟨world, ok, refreshed, refreshes, numbers, isPolled, -,
      left⟩ := mrshDestroyTerminatedJobs_done numbered ended
    refine ⟨world, ok, refreshed, refreshes, numbers, isPolled, ?_⟩
    rw [left, List.filter_map]
    rfl
  · intro current previous r reason stopped ended
    exact destroyTerminatedLoop_ends numbered (by omega) ended (Nat.zero_le _)

end

/-- The shell after a call. -/
def afterJobCall (call : JobCall) (state : Shell Machine) : Shell Machine := (Leaf.run call.prog state).state

theorem JobRun.afterJobCall {start state : Shell Machine} (reached : JobRun start state) (call : JobCall)
    (ended : (Leaf.run call.prog state).value? = some ()) : JobRun start (Mrsh.afterJobCall call state) :=
  reached.call call (Outcome.eq_done_of_value? ended)

def createExit : JobCall := .create (.commandList (exitCommand []))

/-- The second of three jobs is removed, and a new one gets the number behind the last one. -/
def numberedShell : Shell Machine :=
  afterJobCall createExit (afterJobCall (.destroy 1) (afterJobCall createExit (afterJobCall createExit
    (afterJobCall createExit (mrshStateCreate [] Machine.isolated)))))

theorem jobNumbers_increase_numberedShell :
    numberedShell.jobs.map Job.number = [(0, 1), (2, 3), (3, 4)] ∧ NumbersIncrease numberedShell.jobs ∧
      FindsByNumber numberedShell := by
  have reached : JobRun (mrshStateCreate [] Machine.isolated) numberedShell :=
    ((((JobRun.start.afterJobCall _ (by decide +kernel)).afterJobCall _ (by decide +kernel)).afterJobCall _
      (by decide +kernel)).afterJobCall _ (by decide +kernel)).afterJobCall _ (by decide +kernel)
  have holds := jobNumbers_increase _ _ rfl reached
  exact ⟨by decide +kernel, holds.1, holds.2.1⟩

end Mrsh
