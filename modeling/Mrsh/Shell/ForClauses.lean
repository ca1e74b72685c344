import Mrsh.Shell.AtSign
import Mrsh.Shell.Breaking

namespace Mrsh

open Mrsh.Data

/-! # The rounds of a `for` clause

The body is run for the fields of the words after `in`, in their order. Without `in` there are
no words, and the positional parameters are not put in their place. A round that ends with
`continue` leaves its interruption behind as the status of the clause if it is the last one.
-/

section

variable {World : Type} [System World]

/-- A run of the body of a clause. -/
structure BodyRun (World : Type) where
  start : Shell World
  outcome : Outcome Ending (Shell World) Int

/-- The loop of `run_for_clause`, and the runs of its body. -/
def notedRounds (fuel : Nat) (ctx : Context) (fc : ForClause) (loopNum : Int) :
    List Str → Int → Shell World → Outcome Ending (Shell World) Int × List (BodyRun World)
  | [], loopRet, state =>
      if state.exit = -1 then (Exec.run (leaveLoop loopRet) state, []) else (Exec.run (stopLoop loopRet) state, [])
  | field :: fields, loopRet, state =>
      if state.exit = -1 then
        let start := writeVar state fc.name (some ⟨field, .none⟩)
        let body : BodyRun World := ⟨start, Exec.run (runLists (tasks fuel) ctx fc.body 0) start⟩
        match body.outcome.andThen fun status after => Exec.run (endOfBody loopNum status) after with
        | .done (.again loopRet) after =>
            let later := notedRounds fuel ctx fc loopNum fields loopRet after
            (later.1, body :: later.2)
        | .done (.leave loopRet) after => (Exec.run (leaveLoop loopRet) after, [body])
        | .done (.fail ret) after => (.done ret after, [body])
        | .stopped reason after => (.stopped reason after, [body])
      else (Exec.run (stopLoop loopRet) state, [])

/-- `run_for_clause`, and the runs of the body. -/
def notedClause (fuel : Nat) (ctx : Context) (fc : ForClause) (state : Shell World) :
    Outcome Ending (Shell World) Int × List (BodyRun World) :=
  match Exec.run (expandWords (tasks fuel) ctx fc.wordList) { state with nloops := state.nloops + 1 } with
  | .done (ret, fields) first =>
      if ret < 0 then (.done ret first, []) else notedRounds fuel ctx fc (state.nloops + 1) fields 0 first
  | .stopped reason after => (.stopped reason after, [])

theorem notedRounds_run (fuel : Nat) (ctx : Context) (fc : ForClause) (loopNum : Int) (fields : List Str)
    (loopRet : Int)
    (state : Shell World) :
    (notedRounds fuel ctx fc loopNum fields loopRet state).1 =
      Exec.run (forRounds (tasks fuel) ctx fc loopNum fields loopRet) state := by
  induction fields generalizing loopRet state with
  | nil =>
      rw [notedRounds, forRounds, Exec.run_gets_bind, Exec.run_ite]
      by_cases runs : state.exit = -1 <;> simp [runs]
  | cons field fields ih =>
      by_cases runs : state.exit = -1
      · rw [forRounds_run runs, runLoopBody_run, notedRounds, if_pos runs]
        dsimp only
        cases ended :
          (Exec.run (runLists (tasks fuel) ctx fc.body 0) (writeVar state fc.name (some ⟨field, .none⟩))).andThen
            fun status after => Exec.run (endOfBody loopNum status) after with
        | stopped reason after => rfl
        | done round after =>
            cases round with
            | again loopRet => exact ih loopRet after
            | leave loopRet => rfl
            | fail ret => rfl
      · rw [notedRounds, if_neg runs, forRounds, Exec.run_gets_bind,
          Exec.run_ite, if_pos (by simpa using runs)]

theorem notedClause_run (fuel : Nat) (ctx : Context) (fc : ForClause) (state : Shell World) :
    (notedClause fuel ctx fc state).1 = Exec.run (runForClause (tasks fuel) ctx fc) state := by
  have entered : Exec.run (enterLoop : Exec World Int) state =
      .done (state.nloops + 1) { state with nloops := state.nloops + 1 } := rfl
  rw [runForClause, Exec.run_bind_of_done entered, Exec.run_bind, notedClause]
  cases Exec.run (expandWords (tasks fuel) ctx fc.wordList) { state with nloops := state.nloops + 1 } with
  | stopped reason after => rfl
  | done expanded first =>
      obtain ⟨ret, fields⟩ := expanded
      rw [Outcome.andThen_done, Exec.run_ite]
      dsimp only
      split
      · rfl
      · exact notedRounds_run fuel ctx fc _ fields 0 first

/-! ## What the clause should do -/

/-- The bodies are run for the first fields, in order: each one starts where the one before has ended, with the
variable set to its field. -/
def RunsFields (fuel : Nat) (ctx : Context) (fc : ForClause) : List Str → Shell World → List (BodyRun World) → Prop
  | _, _, [] => True
  | [], _, _ :: _ => False
  | field :: fields, state, body :: bodies =>
      body.start = writeVar state fc.name (some ⟨field, .none⟩) ∧
        body.outcome = Exec.run (runLists (tasks fuel) ctx fc.body 0) body.start ∧
          RunsFields fuel ctx fc fields body.outcome.state bodies

/-- The state in which the last body has ended. -/
def lastState (first : Shell World) (bodies : List (BodyRun World)) : Shell World :=
  (bodies.getLast?.map (·.outcome.state)).getD first

/-- A body was interrupted by a `continue` for this loop. -/
def ResumesLoop (loopNum status : Int) (after : Shell World) : Prop :=
  status = taskStatusInterrupted ∧ loopNum ≤ after.nloops ∧ after.branchControl = .continue

instance (loopNum status : Int) (after : Shell World) : Decidable (ResumesLoop loopNum status after) :=
  inferInstanceAs (Decidable (_ ∧ _ ∧ _))

/-- The shell exits, or the last body has failed or was interrupted, but not by `continue`. -/
def StopsEarly (loopNum : Int) (first : Shell World) (bodies : List (BodyRun World)) : Prop :=
  (lastState first bodies).exit ≠ -1 ∨
    ∃ body status after, bodies.getLast? = some body ∧ body.outcome = .done status after ∧ status < 0 ∧
      ¬ ResumesLoop loopNum status after

/-- The status of the last body, or 0. An interruption that ends at this loop is none. -/
def clauseStatus (loopNum : Int) (bodies : List (BodyRun World)) : Int :=
  match bodies.getLast? with
  | some ⟨_, .done status after⟩ => if status = taskStatusInterrupted ∧ loopNum ≤ after.nloops then 0 else status
  | _ => 0

structure RunsEachField (fuel : Nat) (ctx : Context) (fc : ForClause) (loopNum : Int) (fields : List Str)
    (first : Shell World) (noted : Outcome Ending (Shell World) Int × List (BodyRun World)) : Prop where
  inOrder : RunsFields fuel ctx fc fields first noted.2
  all : noted.1.value?.isSome → noted.2.length = fields.length ∨ StopsEarly loopNum first noted.2
  status : ∀ ret, noted.1.value? = some ret → ret = clauseStatus loopNum noted.2

/-- The last body that is run is interrupted by `continue`, where one before the first field may be. -/
def lastContinues (fuel : Nat) (ctx : Context) (fc : ForClause) (loopNum : Int) :
    List Str → Bool → Shell World → Bool
  | [], continued, _ => continued
  | field :: fields, continued, state =>
      if state.exit = -1 then
        match Exec.run (runLists (tasks fuel) ctx fc.body 0) (writeVar state fc.name (some ⟨field, .none⟩)) with
        | .done status after =>
            if ResumesLoop loopNum status after then lastContinues fuel ctx fc loopNum fields true after
            else decide (0 ≤ status) && lastContinues fuel ctx fc loopNum fields false after
        | .stopped _ _ => false
      else continued

/-! ## What it does -/

omit [System World] in
theorem endOfBody_continues {loopNum status : Int} {state : Shell World}
    (continues : ResumesLoop loopNum status state) :
    Exec.run (endOfBody loopNum status) state = .done (.again taskStatusInterrupted) state := by
  obtain ⟨rfl, above, branch⟩ := continues
  have notBelow : ¬state.nloops < loopNum := by omega
  rw [endOfBody, if_pos (beq_self_eq_true _), interruptLoop_run, if_neg notBelow, if_pos branch]

omit [System World] in
theorem endOfBody_again {loopNum status : Int} {state : Shell World} (natural : 0 ≤ status) :
    Exec.run (endOfBody loopNum status) state = .done (.again status) state := by
  have notInterrupted : ¬(status == taskStatusInterrupted) = true := by
    simp only [beq_iff_eq, taskStatusInterrupted]
    omega
  rw [endOfBody, if_neg notInterrupted, if_neg (by omega)]
  rfl

omit [System World] in
theorem endOfBody_stops {loopNum status : Int} {state : Shell World} (negative : status < 0)
    (stops : ¬ ResumesLoop loopNum status state) :
    ∃ after, Exec.run (endOfBody loopNum status) state =
        .done (.leave (if status = taskStatusInterrupted ∧ loopNum ≤ state.nloops then 0 else status)) after ∨
      Exec.run (endOfBody loopNum status) state =
        .done (.fail (if status = taskStatusInterrupted ∧ loopNum ≤ state.nloops then 0 else status)) after := by
  by_cases interrupted : status = taskStatusInterrupted
  · subst interrupted
    rw [endOfBody, if_pos (beq_self_eq_true _), interruptLoop_run]
    by_cases below : state.nloops < loopNum
    · have notAbove : ¬loopNum ≤ state.nloops := by omega
      exact ⟨state, .inl (by simp [below, notAbove])⟩
    · have above : loopNum ≤ state.nloops := by omega
      have branch : state.branchControl ≠ .continue := fun same => stops ⟨rfl, above, same⟩
      exact ⟨_, .inl (by simp only [below, if_false, branch, above, and_self, if_true]; rfl)⟩
  · have notInterrupted : ¬(status == taskStatusInterrupted) = true := by simpa using interrupted
    refine ⟨state, .inr ?_⟩
    rw [endOfBody, if_neg notInterrupted, if_pos negative, if_neg (by simp [interrupted])]
    rfl

variable {fuel : Nat} {ctx : Context} {fc : ForClause} {loopNum : Int}

omit [System World] in
theorem clauseStatus_cons (loopNum : Int) (body : BodyRun World) {bodies : List (BodyRun World)} (some : bodies ≠ []) :
    clauseStatus loopNum (body :: bodies) = clauseStatus loopNum bodies := by
  obtain ⟨second, rest, rfl⟩ := List.exists_cons_of_ne_nil some
  rw [clauseStatus, clauseStatus, List.getLast?_cons_cons]

omit [System World] in
theorem lastState_cons (first : Shell World) (body : BodyRun World) (bodies : List (BodyRun World)) :
    lastState first (body :: bodies) = lastState body.outcome.state bodies := by
  cases bodies with
  | nil => rfl
  | cons second rest =>
      rw [lastState, lastState, List.getLast?_cons_cons]
      cases last : (second :: rest).getLast? with
      | none => simp at last
      | some body => rfl

omit [System World] in
theorem StopsEarly.cons {body : BodyRun World} {bodies : List (BodyRun World)} {first : Shell World}
    (stops : StopsEarly loopNum body.outcome.state bodies) : StopsEarly loopNum first (body :: bodies) := by
  rcases stops with exits | ⟨last, status, after, found, ended⟩
  · left
    rw [lastState_cons]
    exact exits
  · right
    obtain ⟨second, rest, rfl⟩ : ∃ second rest, bodies = second :: rest := by
      cases bodies with
      | nil => cases found
      | cons second rest => exact ⟨second, rest, rfl⟩
    exact ⟨last, status, after, by rw [List.getLast?_cons_cons, found], ended⟩

omit [System World] in
theorem stopLoop_value (loopRet : Int) (state : Shell World) :
    (Exec.run (stopLoop loopRet) state).value? = some loopRet := by
  rw [stopLoop, Exec.run_ite]
  split <;> rfl

/-- What is noted of the rounds, and the status that they end with. -/
structure NotesRounds (fuel : Nat) (ctx : Context) (fc : ForClause) (loopNum : Int) (fields : List Str) (loopRet : Int)
    (continued : Bool) (state : Shell World)
    (noted : Outcome Ending (Shell World) Int × List (BodyRun World)) : Prop where
  inOrder : RunsFields fuel ctx fc fields state noted.2
  all : noted.1.value?.isSome → noted.2.length = fields.length ∨ StopsEarly loopNum state noted.2
  none : noted.2 = [] → lastContinues fuel ctx fc loopNum fields continued state = continued
  continues : lastContinues fuel ctx fc loopNum fields continued state = true →
    noted.1.value? = some taskStatusInterrupted ∧ (noted.2 ≠ [] → clauseStatus loopNum noted.2 = 0)
  status : lastContinues fuel ctx fc loopNum fields continued state = false → ∀ ret, noted.1.value? = some ret →
    ret = if noted.2 = [] then loopRet else clauseStatus loopNum noted.2

theorem NotesRounds.of_noRound {fields : List Str} {loopRet : Int} {continued : Bool} {state : Shell World}
    {outcome : Outcome Ending (Shell World) Int} (flag : continued = true → loopRet = taskStatusInterrupted)
    (noRound : fields = [] ∨ state.exit ≠ -1) (ended : outcome.value? = some loopRet) :
    NotesRounds fuel ctx fc loopNum fields loopRet continued state (outcome, []) := by
  have last : lastContinues fuel ctx fc loopNum fields continued state = continued := by
    cases fields with
    | nil => rfl
    | cons field fields => rw [lastContinues, if_neg (by simpa using noRound)]
  refine ⟨?_, fun _ => ?_, fun _ => last, fun continues => ?_, fun _ ret same => ?_⟩
  · cases fields <;> trivial
  · rcases noRound with rfl | exits
    · exact .inl rfl
    · exact .inr (.inl exits)
  · rw [last] at continues
    exact ⟨by rw [ended, flag continues], fun some => absurd rfl some⟩
  · rw [ended] at same
    exact (Option.some.inj same).symm

theorem NotesRounds.again {field : Str} {fields : List Str} {loopRet next status : Int} {continued after_ : Bool}
    {state start after : Shell World} {later : Outcome Ending (Shell World) Int × List (BodyRun World)}
    (started : start = writeVar state fc.name (some ⟨field, .none⟩))
    (ended : .done status after = Exec.run (runLists (tasks fuel) ctx fc.body 0) start)
    (last : lastContinues fuel ctx fc loopNum (field :: fields) continued state =
      lastContinues fuel ctx fc loopNum fields after_ after)
    (zero : after_ = true → clauseStatus loopNum [⟨start, .done status after⟩] = 0)
    (same : after_ = false → clauseStatus loopNum [⟨start, .done status after⟩] = next)
    (notes : NotesRounds fuel ctx fc loopNum fields next after_ after later) :
    NotesRounds fuel ctx fc loopNum (field :: fields) loopRet continued state
      (later.1, ⟨start, .done status after⟩ :: later.2) := by
  refine ⟨⟨started, ended, notes.inOrder⟩, fun returned => ?_, nofun, fun continues => ?_,
    fun goesOn ret returned => ?_⟩
  · rcases notes.all returned with all | stops
    · exact .inl (by rw [List.length_cons, List.length_cons, all])
    · exact .inr stops.cons
  · rw [last] at continues
    obtain ⟨interrupted, something⟩ := notes.continues continues
    refine ⟨interrupted, fun _ => ?_⟩
    by_cases none : later.2 = []
    · rw [none]
      exact zero ((notes.none none).symm.trans continues)
    · rw [clauseStatus_cons _ _ none]
      exact something none
  · rw [last] at goesOn
    rw [if_neg (List.cons_ne_nil _ _), notes.status goesOn ret returned]
    split
    · rename_i none
      change next = clauseStatus loopNum (⟨start, .done status after⟩ :: later.2)
      rw [none, same ((notes.none none).symm.trans goesOn)]
    · rename_i some
      rw [clauseStatus_cons _ _ some]

/-- The loop is left after a round that has failed or was interrupted. -/
theorem NotesRounds.noRound {field : Str} {fields : List Str} {loopRet status : Int} {continued : Bool}
    {state start after : Shell World} {outcome : Outcome Ending (Shell World) Int}
    (started : start = writeVar state fc.name (some ⟨field, .none⟩))
    (ended : .done status after = Exec.run (runLists (tasks fuel) ctx fc.body 0) start)
    (last : lastContinues fuel ctx fc loopNum (field :: fields) continued state = false) (negative : status < 0)
    (stops : ¬ ResumesLoop loopNum status after)
    (returned : outcome.value? = some (if status = taskStatusInterrupted ∧ loopNum ≤ after.nloops then 0 else status)) :
    NotesRounds fuel ctx fc loopNum (field :: fields) loopRet continued state
      (outcome, [⟨start, .done status after⟩]) := by
  refine ⟨⟨started, ended, ?_⟩, fun _ => .inr (.inr ⟨_, status, after, rfl, rfl, negative, stops⟩), nofun,
    fun continues => ?_, fun _ ret same => ?_⟩
  · cases fields <;> trivial
  · rw [last] at continues
    cases continues
  · rw [returned] at same
    rw [if_neg (List.cons_ne_nil _ _)]
    exact (Option.some.inj same).symm

theorem notedRounds_notes (fields : List Str) (loopRet : Int) (continued : Bool) (state : Shell World)
    (flag : continued = true → loopRet = taskStatusInterrupted) :
    NotesRounds fuel ctx fc loopNum fields loopRet continued state
      (notedRounds fuel ctx fc loopNum fields loopRet state) := by
  induction fields generalizing loopRet continued state with
  | nil =>
      rw [notedRounds]
      split
      · exact .of_noRound flag (.inl rfl) rfl
      · exact .of_noRound flag (.inl rfl) (stopLoop_value loopRet state)
  | cons field fields ih =>
      by_cases runs : state.exit = -1
      · rw [notedRounds, if_pos runs]
        dsimp only
        generalize started : writeVar state fc.name (some ⟨field, .none⟩) = start
        cases ended : Exec.run (runLists (tasks fuel) ctx fc.body 0) start with
        | stopped reason after =>
            have last : lastContinues fuel ctx fc loopNum (field :: fields) continued state = false := by
              rw [lastContinues, if_pos runs, started, ended]
            refine ⟨⟨started.symm, ended.symm, ?_⟩, nofun, nofun, fun continues => ?_, fun _ _ => nofun⟩
            · cases fields <;> trivial
            · rw [last] at continues
              cases continues
        | done status after =>
            rw [Outcome.andThen_done]
            by_cases continues : ResumesLoop loopNum status after
            · rw [endOfBody_continues continues]
              have zero : clauseStatus loopNum [⟨start, .done status after⟩] = 0 := if_pos ⟨continues.1, continues.2.1⟩
              have last : lastContinues fuel ctx fc loopNum (field :: fields) continued state =
                  lastContinues fuel ctx fc loopNum fields true after := by
                rw [lastContinues, if_pos runs, started, ended]
                exact if_pos continues
              exact .again started.symm ended.symm last (fun _ => zero) nofun (ih _ true after fun _ => rfl)
            · by_cases negative : status < 0
              · have last : lastContinues fuel ctx fc loopNum (field :: fields) continued state = false := by
                  have notNatural : ¬ 0 ≤ status := by omega
                  rw [lastContinues, if_pos runs, started, ended]
                  simp only [continues, if_false, notNatural, decide_false, Bool.false_and]
                obtain ⟨stopped, leaves | fails⟩ := endOfBody_stops negative continues
                · rw [leaves]
                  exact .noRound started.symm ended.symm last negative continues rfl
                · rw [fails]
                  exact .noRound started.symm ended.symm last negative continues rfl
              · have natural : 0 ≤ status := by omega
                rw [endOfBody_again natural]
                have same : clauseStatus loopNum [⟨start, .done status after⟩] = status := by
                  refine if_neg fun interrupted => ?_
                  rw [interrupted.1] at natural
                  exact absurd natural (by decide)
                have last : lastContinues fuel ctx fc loopNum (field :: fields) continued state =
                    lastContinues fuel ctx fc loopNum fields false after := by
                  rw [lastContinues, if_pos runs, started, ended]
                  simp only [continues, if_false, natural, decide_true, Bool.true_and]
                exact .again started.symm ended.symm last nofun (fun _ => same) (ih _ false after nofun)
      · rw [notedRounds, if_neg runs]
        exact .of_noRound flag (.inr runs) (stopLoop_value loopRet state)

/-! ## Clauses with and without `in` -/

/-- The fields of a clause, and the state in which its loop starts. -/
inductive ClauseFields (fuel : Nat) (ctx : Context) (fc : ForClause) (state : Shell World) :
    List Str → Shell World → Prop where
  | words {status : Int} {fields : List Str} {first : Shell World} (hasIn : fc.hasIn = true)
      (expanded : Exec.run (expandWords (tasks fuel) ctx fc.wordList) { state with nloops := state.nloops + 1 } =
        .done (status, fields) first) (natural : 0 ≤ status) : ClauseFields fuel ctx fc state fields first
  | parameters {args : List Str} (noIn : fc.hasIn = false) (positional : HasPositional state args) :
      ClauseFields fuel ctx fc state args { state with nloops := state.nloops + 1 }

/-- The body is run for each field of the clause, and for none if they cannot be expanded. -/
structure RunsForClause (fuel : Nat) (ctx : Context) (fc : ForClause) (state : Shell World) : Prop where
  fields : ∀ fields first, ClauseFields fuel ctx fc state fields first →
    RunsEachField fuel ctx fc (state.nloops + 1) fields first (notedClause fuel ctx fc state)
  fails : ∀ status fields first, fc.hasIn = true →
    Exec.run (expandWords (tasks fuel) ctx fc.wordList) { state with nloops := state.nloops + 1 } =
      .done (status, fields) first → status < 0 → notedClause fuel ctx fc state = (.done status first, [])

/-- The last body that is run for a field of the words is interrupted by `continue`. -/
def clauseContinues (fuel : Nat) (ctx : Context) (fc : ForClause) (state : Shell World) : Bool :=
  match Exec.run (expandWords (tasks fuel) ctx fc.wordList) { state with nloops := state.nloops + 1 } with
  | .done (status, fields) first =>
      decide (0 ≤ status) && lastContinues fuel ctx fc (state.nloops + 1) fields false first
  | .stopped _ _ => false

theorem runsForClause_withIn_iff {state : Shell World} (hasIn : fc.hasIn = true) :
    RunsForClause fuel ctx fc state ↔ clauseContinues fuel ctx fc state = false := by
  unfold clauseContinues
  have fails : ∀ status fields first, fc.hasIn = true →
      Exec.run (expandWords (tasks fuel) ctx fc.wordList) { state with nloops := state.nloops + 1 } =
        .done (status, fields) first → status < 0 → notedClause fuel ctx fc state = (.done status first, []) := by
    intro status fields first _ expanded negative
    rw [notedClause, expanded]
    exact if_pos negative
  cases expanded : Exec.run (expandWords (tasks fuel) ctx fc.wordList) { state with nloops := state.nloops + 1 } with
  | stopped reason after =>
      refine iff_of_true ⟨fun fields first clause => ?_, fails⟩ rfl
      cases clause with
      | words _ found _ =>
          rw [expanded] at found
          cases found
      | parameters noIn _ =>
          rw [hasIn] at noIn
          cases noIn
  | done result first =>
      obtain ⟨status, fields⟩ := result
      dsimp only
      by_cases natural : 0 ≤ status
      · have noted : notedClause fuel ctx fc state = notedRounds fuel ctx fc (state.nloops + 1) fields 0 first := by
          rw [notedClause, expanded]
          exact if_neg (by omega)
        have notes : NotesRounds fuel ctx fc (state.nloops + 1) fields 0 false first _ :=
          notedRounds_notes fields 0 false first nofun
        simp only [natural, decide_true, Bool.true_and]
        constructor
        · intro runs
          have each := runs.fields fields first (.words hasIn expanded natural)
          rw [noted] at each
          by_contra continues
          obtain ⟨interrupted, something⟩ := notes.continues (by simpa using continues)
          have some : (notedRounds fuel ctx fc (state.nloops + 1) fields 0 first).2 ≠ [] := fun none =>
            continues (notes.none none)
          have status := each.status _ interrupted
          rw [something some] at status
          exact absurd status (by decide)
        · intro goesOn
          refine ⟨fun found start clause => ?_, fails⟩
          cases clause with
          | words _ again _ =>
              rw [expanded] at again
              cases again
              rw [noted]
              refine ⟨notes.inOrder, notes.all, fun ret returned => ?_⟩
              rw [notes.status goesOn ret returned]
              split
              · rename_i none
                rw [none]
                rfl
              · rfl
          | parameters noIn _ =>
              rw [hasIn] at noIn
              cases noIn
      · have notNatural : decide (0 ≤ status) = false := by simpa using natural
        rw [notNatural, Bool.false_and]
        refine iff_of_true ⟨fun found start clause => ?_, fails⟩ rfl
        cases clause with
        | words _ again natural' =>
            rw [expanded] at again
            cases again
            exact absurd natural' natural
        | parameters noIn _ =>
            rw [hasIn] at noIn
            cases noIn

theorem runsForClause_withoutIn_iff {state : Shell World} (noIn : fc.hasIn = false) (noWords : fc.wordList = []) :
    RunsForClause fuel ctx fc state ↔ ∀ args, HasPositional state args → args = [] ∨ state.exit ≠ -1 := by
  have noted : ∃ outcome, notedClause fuel ctx fc state = (outcome, []) ∧ outcome.value? = some 0 := by
    rw [notedClause, noWords]
    change ∃ outcome, notedRounds fuel ctx fc (state.nloops + 1) [] 0 { state with nloops := state.nloops + 1 } = _ ∧ _
    rw [notedRounds]
    split
    · exact ⟨_, rfl, rfl⟩
    · exact ⟨_, rfl, stopLoop_value _ _⟩
  obtain ⟨outcome, noted, returned⟩ := noted
  constructor
  · intro runs args positional
    have each := runs.fields args _ (.parameters noIn positional)
    rw [noted] at each
    have done : outcome.value?.isSome = true := by rw [returned]; rfl
    rcases each.all done with all | exits | ⟨body, _, _, found, _⟩
    · exact .inl (List.eq_nil_of_length_eq_zero all.symm)
    · exact .inr exits
    · cases found
  · intro noRound
    refine ⟨fun fields first clause => ?_, fun _ _ _ hasIn => ?_⟩
    · cases clause with
      | words hasIn _ _ =>
          rw [noIn] at hasIn
          cases hasIn
      | parameters _ positional =>
          rw [noted]
          refine ⟨?_, fun _ => ?_, fun ret same => ?_⟩
          · cases fields <;> trivial
          · rcases noRound fields positional with rfl | exits
            · exact .inl rfl
            · exact .inr (.inl exits)
          · rw [returned] at same
            exact (Option.some.inj same).symm
    · rw [noIn] at hasIn
      cases hasIn

/-- A clause that the parser builds has no words without `in`. Its body is run for each of its fields exactly if it
has `in`, and its last round does not end with `continue`, or there is no positional parameter and nothing to do. -/
theorem runForClause_runs_iff (fuel : Nat) (ctx : Context) (fc : ForClause) (state : Shell World)
    (parsed : fc.hasIn = false → fc.wordList = []) :
    (notedClause fuel ctx fc state).1 = Exec.run (runForClause (tasks fuel) ctx fc) state ∧
      (RunsForClause fuel ctx fc state ↔
        if fc.hasIn then clauseContinues fuel ctx fc state = false
        else ∀ args, HasPositional state args → args = [] ∨ state.exit ≠ -1) := by
  refine ⟨notedClause_run fuel ctx fc state, ?_⟩
  cases hasIn : fc.hasIn with
  | true => exact runsForClause_withIn_iff hasIn
  | false => exact runsForClause_withoutIn_iff hasIn (parsed hasIn)

end

theorem forWords_withoutIn {self : Productions} {before after : Parser} {words : List Word}
    (read : forWords self false before = .done (some words) after) : words = [] := by
  obtain ⟨_, _, _, ended⟩ := Run.bind_done.mp read
  cases ended
  rfl

/-- The parser keeps the words and the flag of a clause together. -/
theorem forClause_parsed {self : Productions} {before after : Parser} {fc : ForClause}
    (parsed : forClause self before = .done (some fc) after) : fc.hasIn = false → fc.wordList = [] := by
  obtain ⟨forRange, _, _, rest⟩ := Run.bind_done.mp parsed
  cases forRange with
  | none => cases rest
  | some forRange =>
      obtain ⟨nameLen, _, _, rest⟩ := Run.bind_done.mp rest
      rw [Run.ite_apply] at rest
      split at rest
      · obtain ⟨_, _, _, rest⟩ := Run.bind_done.mp rest
        cases rest
      · obtain ⟨name, _, _, rest⟩ := Run.bind_done.mp rest
        cases name with
        | none => cases rest
        | some name =>
            obtain ⟨_, _, _, rest⟩ := Run.bind_done.mp rest
            obtain ⟨inRange, _, _, rest⟩ := Run.bind_done.mp rest
            obtain ⟨words, between, read, rest⟩ := Run.bind_done.mp rest
            cases words with
            | none => cases rest
            | some words =>
                obtain ⟨body, _, _, rest⟩ := Run.bind_done.mp rest
                cases body with
                | none => cases rest
                | some body =>
                    cases rest
                    intro noIn
                    have noIn : inRange.isSome = false := noIn
                    rw [noIn] at read
                    exact forWords_withoutIn read

def colonBody : Command := .simpleCommand (literalCommand [':'] [])

/-- `for x in a; do :; done` -/
theorem runForClause_runs_single : RunsForClause 4 inJob (forWord ['x'] ['a'] colonBody) newShell := by
  have exactly := (runForClause_runs_iff 4 inJob (forWord ['x'] ['a'] colonBody) newShell nofun).2
  have goesOn : clauseContinues 4 inJob (forWord ['x'] ['a'] colonBody) newShell = false := by decide +kernel
  exact exactly.mpr goesOn

/-- `for x; do :; done` -/
def forParameters : ForClause := { forWord ['x'] [] colonBody with hasIn := false, wordList := [] }

/-- `for x; do :; done` runs nothing for two positional parameters, and `for x in a; do continue; done` ends with the
status of an interruption. -/
theorem forClause_misruns :
    ¬ RunsForClause 4 inJob forParameters (twoParameters none) ∧
      ¬ RunsForClause 4 inJob (forWord ['x'] ['a'] (.simpleCommand (literalCommand "continue".toList [])))
        newShell := by
  constructor
  · rw [runsForClause_withoutIn_iff rfl rfl]
    intro noRound
    rcases noRound _ (twoParameters_positional none) with none | exits
    · cases none
    · exact exits rfl
  · rw [runsForClause_withIn_iff rfl]
    decide +kernel

end Mrsh
