import Mrsh.Shell.Breaking

namespace Mrsh

open Mrsh.Data

/-! # Failures in an AND-OR list

A negative status is no exit status: it says that a pipeline failed, was stopped or was
interrupted. `run_and_or_list` returns such a status of the left operand of `&&`, but takes it
for a nonzero exit status in the left operand of `||`.
-/

section

variable {ρ σ : Type}

inductive PipelineEvent where
  | started (pl : Pipeline)
  | ended (pl : Pipeline) (status : Int)

/-- Runs a pipeline and notes it. -/
def noting (behave : Pipeline → Run ρ σ Int) (pl : Pipeline) : Run ρ (List PipelineEvent × σ) Int :=
  fun (events, state) =>
    match behave pl state with
    | .done status after => .done status (events ++ [.started pl, .ended pl status], after)
    | .stopped reason after => .stopped reason (events ++ [.started pl], after)

/-- `run_and_or_list`, and which pipelines it runs. -/
def notedRun (behave : Pipeline → Run ρ σ Int) (interrupt : σ → σ) (tree : AndOrList) :
    Run ρ (List PipelineEvent × σ) Int :=
  runAndOrList (noting behave) (Run.modify fun (events, state) => (events, interrupt state)) tree

def withoutEvents {α : Type} : Outcome ρ (List PipelineEvent × σ) α → Outcome ρ σ α
  | .done status after => .done status after.2
  | .stopped reason after => .stopped reason after.2

/-- After a pipeline with a negative status none is run, and that status is returned. -/
def EndsAtFailure (outcome : Outcome ρ (List PipelineEvent × σ) Int) : Prop :=
  ∀ earlier pl status later, outcome.state.1 = earlier ++ .ended pl status :: later → status < 0 →
    later = [] ∧ outcome.value? = some status

/-! ## Reading a list up to the first failure -/

/-- Whether the right operand is run after an exit status of the left one. -/
def selectsRight : BinopType → Int → Bool
  | .and, status => status == 0
  | .or, status => status != 0

/-- How the pipelines end that the exit statuses select. -/
inductive ListResult (σ : Type) where
  | exits (status : Int) (after : σ)
  /-- The status of a pipeline is negative, which is in the left operand of an `||` or in none. -/
  | fails (leftOfOr : Bool)
  /-- A pipeline does not return. -/
  | stops

def ListResult.failsLeftOfOr : ListResult σ → Bool
  | .fails leftOfOr => leftOfOr
  | _ => false

def listResult (behave : Pipeline → Run ρ σ Int) : AndOrList → σ → ListResult σ
  | .pipeline pl, state =>
      match behave pl state with
      | .done status after => if status < 0 then .fails false else .exits status after
      | .stopped _ _ => .stops
  | .binop type left right _, state =>
      match listResult behave left state with
      | .exits status after => if selectsRight type status then listResult behave right after else .exits status after
      | .fails leftOfOr => .fails (leftOfOr || type == .or)
      | .stops => .stops

/-! ## The run of a list -/

variable {behave : Pipeline → Run ρ σ Int} {interrupt : σ → σ}

/-- Events are noted after those that were noted before. -/
def NotesMore (before after : List PipelineEvent × σ) : Prop := before.1 <+: after.1

instance : Std.Refl (NotesMore : List PipelineEvent × σ → List PipelineEvent × σ → Prop) := ⟨fun _ => List.prefix_rfl⟩

instance : IsTrans (List PipelineEvent × σ) NotesMore := ⟨fun _ _ _ first second => first.trans second⟩

theorem noting_notesMore (pl : Pipeline) : Run.Respects NotesMore (noting behave pl) := by
  intro (events, state)
  unfold noting
  cases ended : behave pl state <;> simp [ended, NotesMore]

theorem andThen_notesMore (outcome : Outcome ρ (List PipelineEvent × σ) Int)
    {next : Int → Run ρ (List PipelineEvent × σ) Int} (continues : ∀ status, Run.Respects NotesMore (next status)) :
    outcome.state.1 <+: (outcome.andThen fun status after => next status after).state.1 := by
  cases outcome with
  | done status after => exact continues status after
  | stopped reason after => exact List.prefix_rfl

theorem notedRun_notesMore : ∀ tree, Run.Respects NotesMore (notedRun behave interrupt tree)
  | .pipeline pl => noting_notesMore pl
  | .binop .and left right _ =>
      .bind (notedRun_notesMore left) fun _ => .ite (fun _ => .pure _) fun _ => notedRun_notesMore right
  | .binop .or left right _ =>
      .bind (notedRun_notesMore left) fun _ => .ite (fun _ => .pure _) fun _ =>
        .ite (fun _ => .bind (.modify fun _ => List.prefix_rfl) fun _ => notedRun_notesMore right)
          fun _ => notedRun_notesMore right

def firstPipeline : AndOrList → Pipeline
  | .pipeline pl => pl
  | .binop _ left _ _ => firstPipeline left

theorem notedRun_starts : ∀ (tree : AndOrList) (events : List PipelineEvent) (state : σ),
    events ++ [.started (firstPipeline tree)] <+: (notedRun behave interrupt tree (events, state)).state.1
  | .pipeline pl, events, state => by
      simp only [notedRun, runAndOrList, noting, firstPipeline]
      cases behave pl state <;> simp
  | .binop type left right range, events, state => by
      have starts := notedRun_starts left events state
      cases type with
      | and => exact starts.trans (andThen_notesMore _ fun status => .ite (fun _ => .pure _)
        fun _ => notedRun_notesMore right)
      | or =>
          refine starts.trans (andThen_notesMore _ fun status => .ite (fun _ => .pure _) fun _ => .ite (fun _ => ?_)
            fun _ => ?_)
          · exact .bind (.modify fun _ => List.prefix_rfl) fun _ => notedRun_notesMore right
          · exact notedRun_notesMore right

/-- A negative status is nonzero, so that the right operand of `||` is run. -/
theorem notedRun_binop (type : BinopType) (left right : AndOrList) (range : Range) :
    notedRun behave interrupt (.binop type left right range) = (do
      let status ← notedRun behave interrupt left
      if selectsRight type status then do
        if status < 0 then
          Run.modify fun (events, state) => (events, interrupt state)
        notedRun behave interrupt right
      else pure status) := by
  have continues : ∀ (first : Run ρ (List PipelineEvent × σ) Int)
      (next other : Int → Run ρ (List PipelineEvent × σ) Int), (∀ status, next status = other status) →
      first >>= next = first >>= other := fun first next other same => by rw [funext same]
  cases type with
  | and =>
      apply continues
      intro status
      by_cases zero : status = 0 <;> simp [selectsRight, zero, notedRun]
  | or =>
      apply continues
      intro status
      by_cases zero : status = 0
      · simp [selectsRight, zero]
      · by_cases negative : status < 0 <;> simp [selectsRight, zero, negative, notedRun]

/-- No event is the end of a pipeline with a negative status. -/
def NoFailure (events : List PipelineEvent) : Prop := ∀ pl status, .ended pl status ∈ events → 0 ≤ status

theorem NoFailure.append {first second : List PipelineEvent} (firstClear : NoFailure first)
    (secondClear : NoFailure second) :
    NoFailure (first ++ second) := by
  intro pl status member
  rcases List.mem_append.mp member with inFirst | inSecond
  · exact firstClear pl status inFirst
  · exact secondClear pl status inSecond

theorem noFailure_started (pl : Pipeline) : NoFailure [.started pl] := by
  intro other status member
  cases List.mem_singleton.mp member

theorem noFailure_ended {pl : Pipeline} {status : Int} (natural : 0 ≤ status) :
    NoFailure [.started pl, .ended pl status] := by
  intro other found member
  rcases List.mem_cons.mp member with first | second
  · cases first
  · cases List.mem_singleton.mp second
    exact natural

/-- What the result of a list says about its run. -/
def ReadsAs (events : List PipelineEvent) (outcome : Outcome ρ (List PipelineEvent × σ) Int) : ListResult σ → Prop
  | .exits status after => 0 ≤ status ∧ ∃ more, NoFailure more ∧ outcome = .done status (events ++ more, after)
  | .fails false =>
      ∃ more pl status after, NoFailure more ∧ status < 0 ∧
        outcome = .done status (events ++ (more ++ [.ended pl status]), after)
  | .fails true =>
      ∃ earlier pl status event, status < 0 ∧ earlier ++ [.ended pl status, event] <+: outcome.state.1
  | .stops => ∃ more reason after, NoFailure more ∧ outcome = .stopped reason (events ++ more, after)

theorem ReadsAs.after {events more : List PipelineEvent} {outcome : Outcome ρ (List PipelineEvent × σ) Int}
    {read : ListResult σ} (reads : ReadsAs (events ++ more) outcome read) (quiet : NoFailure more) :
    ReadsAs events outcome read := by
  cases read with
  | exits status after =>
      obtain ⟨natural, further, furtherClear, ended⟩ := reads
      exact ⟨natural, more ++ further, quiet.append furtherClear, by rw [ended, List.append_assoc]⟩
  | fails leftOfOr =>
      cases leftOfOr with
      | true => exact reads
      | false =>
          obtain ⟨further, pl, status, after, furtherClear, negative, ended⟩ := reads
          exact ⟨more ++ further, pl, status, after, quiet.append furtherClear, negative, by rw [ended]; simp⟩
  | stops =>
      obtain ⟨further, reason, after, furtherClear, ended⟩ := reads
      exact ⟨more ++ further, reason, after, quiet.append furtherClear, by rw [ended, List.append_assoc]⟩

theorem notedRun_reads : ∀ (tree : AndOrList) (events : List PipelineEvent) (state : σ),
    ReadsAs events (notedRun behave interrupt tree (events, state)) (listResult behave tree state)
  | .pipeline pl, events, state => by
      simp only [notedRun, runAndOrList, noting, listResult]
      cases behave pl state with
      | stopped reason after => exact ⟨_, _, _, noFailure_started pl, rfl⟩
      | done status after =>
          by_cases negative : status < 0
          · simp only [negative, if_true]
            exact ⟨[.started pl], pl, status, after, noFailure_started pl, negative, rfl⟩
          · simp only [negative, if_false]
            exact ⟨by omega, _, noFailure_ended (by omega), rfl⟩
  | .binop type left right range, events, state => by
      have leftReads := notedRun_reads left events state
      rw [notedRun_binop, Run.bind_apply, listResult]
      cases read : listResult behave left state with
      | exits status after =>
          rw [read] at leftReads
          obtain ⟨natural, more, quiet, ended⟩ := leftReads
          have notNegative : ¬status < 0 := by omega
          rw [ended, Outcome.andThen_done, Run.ite_apply]
          cases selected : selectsRight type status with
          | true =>
              have rightReads := notedRun_reads right (events ++ more) after
              simp only [selected, notNegative, if_true, if_false]
              exact rightReads.after quiet
          | false =>
              simp only [selected, Bool.false_eq_true, if_false]
              exact ⟨natural, more, quiet, rfl⟩
      | fails leftOfOr =>
          rw [read] at leftReads
          cases leftOfOr with
          | true =>
              obtain ⟨earlier, pl, status, event, negative, noted⟩ := leftReads
              refine ⟨earlier, pl, status, event, negative, noted.trans (andThen_notesMore _ fun status => ?_)⟩
              have interrupts : Run.Respects NotesMore
                  (Run.modify fun (events, state) => (events, interrupt state) : Run ρ (List PipelineEvent × σ) Unit) :=
                .modify fun _ => List.prefix_rfl
              exact .ite (fun _ => .ite (fun _ => interrupts.bind fun _ => notedRun_notesMore right)
                fun _ => notedRun_notesMore right) fun _ => .pure _
          | false =>
              obtain ⟨more, pl, status, after, quiet, negative, ended⟩ := leftReads
              have nonzero : status ≠ 0 := by omega
              rw [ended, Outcome.andThen_done]
              cases type with
              | and =>
                  have skipped : selectsRight .and status = false := by simpa [selectsRight] using nonzero
                  simp only [skipped, Bool.false_eq_true, if_false]
                  exact ⟨more, pl, status, after, quiet, negative, rfl⟩
              | or =>
                  have selected : selectsRight .or status = true := by simpa [selectsRight] using nonzero
                  simp only [selected, negative, if_true]
                  refine ⟨events ++ more, pl, status, .started (firstPipeline right), negative, ?_⟩
                  have starts := @notedRun_starts _ _ behave interrupt right (events ++ (more ++ [.ended pl status]))
                    (interrupt after)
                  simpa using starts
      | stops =>
          rw [read] at leftReads
          obtain ⟨more, reason, after, quiet, ended⟩ := leftReads
          rw [ended]
          exact ⟨more, reason, after, quiet, rfl⟩

/-- A list ends at its first failure exactly if that is in the left operand of no `||`. -/
theorem notedRun_endsAtFailure_iff (tree : AndOrList) (state : σ) :
    EndsAtFailure (notedRun behave interrupt tree ([], state)) ↔
    (listResult behave tree state).failsLeftOfOr = false := by
  have reads := @notedRun_reads _ _ behave interrupt tree [] state
  cases read : listResult behave tree state with
  | exits status after =>
      rw [read] at reads
      obtain ⟨_, more, quiet, ended⟩ := reads
      refine iff_of_true (fun earlier pl failure later noted negative => ?_) rfl
      rw [ended] at noted
      have natural := quiet pl failure (by rw [show more = _ from noted]; simp)
      omega
  | stops =>
      rw [read] at reads
      obtain ⟨more, reason, after, quiet, ended⟩ := reads
      refine iff_of_true (fun earlier pl failure later noted negative => ?_) rfl
      rw [ended] at noted
      have natural := quiet pl failure (by rw [show more = _ from noted]; simp)
      omega
  | fails leftOfOr =>
      rw [read] at reads
      cases leftOfOr with
      | false =>
          obtain ⟨more, pl, status, after, quiet, negative, ended⟩ := reads
          refine iff_of_true (fun earlier other failure later noted failed => ?_) rfl
          rw [ended] at noted ⊢
          have split : more ++ [.ended pl status] = earlier ++ .ended other failure :: later := noted
          rcases List.eq_nil_or_concat later with rfl | ⟨front, last, rfl⟩
          · cases (List.append_inj' split rfl).2
            exact ⟨rfl, rfl⟩
          · have before : more = earlier ++ .ended other failure :: front := by
              rw [List.concat_eq_append, ← List.cons_append, ← List.append_assoc] at split
              exact (List.append_inj' split rfl).1
            have natural := quiet other failure (by rw [before]; simp)
            omega
      | true =>
          obtain ⟨earlier, pl, status, event, negative, later, noted⟩ := reads
          refine iff_of_false (fun endsThere => ?_) (by simp [ListResult.failsLeftOfOr])
          have nothing := (endsThere earlier pl status (event :: later) (by rw [← noted]; simp) negative).1
          cases nothing

/-! ## The list in another monad -/

/-- A relation between computations that sequencing preserves. -/
structure Relating (m n : Type → Type) [Monad m] [Monad n] where
  related : {α : Type} → m α → n α → Prop
  pure : ∀ {α : Type} (value : α), related (pure value) (pure value)
  bind : ∀ {α β : Type} {first : m α} {other : n α} {next : α → m β} {otherNext : α → n β}, related first other →
    (∀ value, related (next value) (otherNext value)) → related (first >>= next) (other >>= otherNext)

variable {m n : Type → Type} [Monad m] [Monad n]

theorem Relating.ite (relating : Relating m n) {α : Type} {condition : Prop} [Decidable condition] {yes no : m α}
    {otherYes otherNo : n α} (ifTrue : relating.related yes otherYes) (ifFalse : relating.related no otherNo) :
    relating.related (if condition then yes else no) (if condition then otherYes else otherNo) := by
  split
  · exact ifTrue
  · exact ifFalse

theorem runAndOrList_related (relating : Relating m n) {run : Pipeline → m Int} {otherRun : Pipeline → n Int}
    {note : m Unit} {otherNote : n Unit} (runs : ∀ pl, relating.related (run pl) (otherRun pl))
    (notes : relating.related note otherNote) :
    ∀ tree, relating.related (runAndOrList run note tree) (runAndOrList otherRun otherNote tree)
  | .pipeline pl => runs pl
  | .binop .and left right _ =>
      relating.bind (runAndOrList_related relating runs notes left) fun _ =>
        relating.ite (relating.pure _) (runAndOrList_related relating runs notes right)
  | .binop .or left right _ =>
      relating.bind (runAndOrList_related relating runs notes left) fun _ =>
        relating.ite (relating.pure _) (relating.ite
          (relating.bind notes fun _ => runAndOrList_related relating runs notes right)
          (runAndOrList_related relating runs notes right))

def forgetting : Relating (Run ρ (List PipelineEvent × σ)) (Run ρ σ) where
  related run other := ∀ events state, withoutEvents (run (events, state)) = other state
  pure value events state := rfl
  bind {α β first other next otherNext} firstSame nextSame events state := by
    have same := firstSame events state
    rw [Run.bind_apply, Run.bind_apply, ← same]
    cases first (events, state) with
    | done value after => exact nextSame value after.1 after.2
    | stopped reason after => rfl

theorem notedRun_withoutEvents (tree : AndOrList) (events : List PipelineEvent) (state : σ) :
    withoutEvents (notedRun behave interrupt tree (events, state)) =
      runAndOrList behave (Run.modify interrupt) tree state := by
  have runs : ∀ pl, forgetting.related (noting behave pl) (behave pl) := by
    intro pl events state
    simp only [noting]
    cases behave pl state <;> rfl
  exact runAndOrList_related forgetting runs (fun _ _ => rfl) tree events state

end

section

variable {World : Type} [System World]

/-- What the interpreter does at an `||` whose left operand was interrupted. -/
def orInterrupted (state : Shell World) : Shell World := (handleControl (.record .orInterrupted) state).2

/-- The run of a pipeline of a list, at the given depth of the interpreter. -/
def pipelineRun (fuel : Nat) (ctx : Context) (pl : Pipeline) : Run Ending (Shell World) Int :=
  Exec.run (runPipeline (tasks fuel) ctx pl)

def running : Relating (Exec World) (Run Ending (Shell World)) where
  related prog run := ∀ state, Exec.run prog state = run state
  pure value state := rfl
  bind {α β first other next otherNext} firstSame nextSame state := by
    rw [Exec.run_bind, Run.bind_apply, firstSame]
    cases other state with
    | done value after => exact nextSame value after
    | stopped reason after => rfl

theorem runAndOr_run (fuel : Nat) (ctx : Context) (tree : AndOrList) (state : Shell World) :
    Exec.run (runAndOr fuel ctx tree) state =
      runAndOrList (pipelineRun fuel ctx) (Run.modify orInterrupted) tree state :=
  runAndOrList_related running (fun _ _ => rfl) (fun _ => rfl) tree state

/-- In every AND-OR list and state, no pipeline is run after one with a negative status, which is then the status of
the list, exactly if the first such pipeline is in the left operand of no `||`. -/
theorem runAndOr_endsAtFailure_iff (fuel : Nat) (ctx : Context) (tree : AndOrList) (state : Shell World) :
    withoutEvents (notedRun (pipelineRun fuel ctx) orInterrupted tree ([], state)) =
        Exec.run (runAndOr fuel ctx tree) state ∧
      (EndsAtFailure (notedRun (pipelineRun fuel ctx) orInterrupted tree ([], state)) ↔
        (listResult (pipelineRun fuel ctx) tree state).failsLeftOfOr = false) := by
  rw [notedRun_withoutEvents, runAndOr_run]
  exact ⟨rfl, notedRun_endsAtFailure_iff tree state⟩

end

def pipelineOf (cmd : Command) : AndOrList := .pipeline { commands := [cmd], bang := false, bangPos := .invalid }

/-- `break || :` goes on with `:`. -/
theorem break_or_goesOn :
    ¬ EndsAtFailure (notedRun (pipelineRun 4 inJob) orInterrupted
      (.binop .or (pipelineOf (breakCommand 1)) (pipelineOf (.simpleCommand (literalCommand [':'] []))) .invalid)
      ([], newShell)) := by
  rw [notedRun_endsAtFailure_iff]
  decide +kernel

end Mrsh
