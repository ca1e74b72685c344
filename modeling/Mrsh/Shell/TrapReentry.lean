import Mrsh.Shell.PendingSignals

namespace Mrsh

open Mrsh.Data

/-! # Entering the pending traps again

A call of `run_pending_traps` marks that it is in progress and takes the mark away at its end. When an
action fails the call returns before that, and no later call gets past the mark.
-/

/-- What a call has found out about the counters when it is at the statement. -/
def Statement.Holds (pendingSigs : Nat → Int) : Statement → Prop
  | .ifTrap i => 0 < pendingSigs i
  | .runProgram i => 0 < pendingSigs i
  | .decrement i => 0 < pendingSigs i
  | _ => True

/-- The mark between the calls tells whether an action has failed. None has when a call is past the mark. -/
def Marked (failed : Bool) (state : SignalState) : Option Statement → Prop
  | none => state.inTrap = failed
  | some statement => failed = false ∧ statement.Holds state.pendingSigs

structure CallsEntered (failed : Bool) (state : SignalState) : Prop where
  progress : ∃ inner, InProgress state.inTrap inner state.calls ∧ Marked failed state inner
  counted : ∀ sig, 0 ≤ state.pendingSigs sig

section

variable {failed : Bool} {before after : SignalState} {event : SignalEvent}

theorem Statement.Holds.more {statement : Statement} {fewer more : Nat → Int} (held : statement.Holds fewer)
    (grown : ∀ sig, fewer sig ≤ more sig) : statement.Holds more := by
  cases statement with
  | ifTrap i => exact Int.lt_of_lt_of_le held (grown i)
  | runProgram i => exact Int.lt_of_lt_of_le held (grown i)
  | decrement i => exact Int.lt_of_lt_of_le held (grown i)
  | _ => trivial

theorem CallsEntered.more (entered : CallsEntered failed before) (sameMark : after.inTrap = before.inTrap)
    (sameCalls : after.calls = before.calls) (grown : ∀ sig, before.pendingSigs sig ≤ after.pendingSigs sig) :
    CallsEntered failed after := by
  obtain ⟨inner, progress, marked⟩ := entered.progress
  refine ⟨⟨inner, ?_, ?_⟩, fun sig => Int.le_trans (entered.counted sig) (grown sig)⟩
  · rw [sameMark, sameCalls]
    exact progress
  · cases inner with
    | none => exact sameMark.trans marked
    | some statement => exact ⟨marked.1, marked.2.more grown⟩

theorem setPending_grown (state : SignalState) (index : Nat) :
    ∀ sig, state.pendingSigs sig ≤ (state.setPending index (state.pendingSigs index + 1)).pendingSigs sig := by
  intro sig
  rw [SignalState.setPending]
  dsimp only
  split
  · rename_i same
    rw [same]
    omega
  · exact Int.le_refl _

theorem CallsEntered.execute {call : PendingCall} (counted : ∀ sig, 0 ≤ before.pendingSigs sig)
    (entered : call.at_ ≠ .ifInTrap) (marked : call.at_ = .setInTrap ∨ before.inTrap = true)
    (holds : call.at_.Holds before.pendingSigs) (executes : execute before call [] = some after) :
      CallsEntered false after := by
  have goesOn : ∀ (state : SignalState) (at_ : Statement) (lastStatus : Int), at_ ≠ .ifInTrap → state.inTrap = true →
      state.calls = [{ at_, lastStatus }] → (∀ sig, 0 ≤ state.pendingSigs sig) → at_.Holds state.pendingSigs →
      CallsEntered false state := by
    intro state at_ lastStatus past mark calls counted holds
    refine ⟨⟨some at_, ?_, rfl, holds⟩, counted⟩
    rw [calls]
    exact .inside { at_, lastStatus } past (.inr mark)
  unfold Mrsh.execute at executes
  cases at_ : call.at_ with
  | ifInTrap => exact absurd at_ entered
  | setInTrap =>
      simp only [at_, Option.some.injEq] at executes
      subst executes
      exact goesOn _ .saveStatus _ (by simp) rfl rfl counted trivial
  | saveStatus =>
      simp only [at_, Option.some.injEq] at executes
      subst executes
      rw [at_] at marked
      exact goesOn _ (.forTest 0) _ (by simp) (by simpa using marked) rfl counted trivial
  | forTest i =>
      simp only [at_, Option.some.injEq] at executes
      subst executes
      rw [at_] at marked
      refine goesOn _ (if i < nsig then .whileTest i else .clearInTrap) _ ?_ (by simpa using marked) rfl counted ?_
      · split <;> simp
      · split <;> trivial
  | whileTest i =>
      simp only [at_, Option.some.injEq] at executes
      subst executes
      rw [at_] at marked
      refine goesOn _ (if 0 < before.pendingSigs i then .ifTrap i else .zero i) _ ?_ (by simpa using marked)
        rfl counted ?_
      · split <;> simp
      · split
        · assumption
        · trivial
  | ifTrap i =>
      simp only [at_, Option.some.injEq] at executes
      subst executes
      rw [at_] at marked holds
      refine goesOn _ (if (before.traps i).runs then .runProgram i else .zero i) _ ?_ (by simpa using marked)
        rfl counted ?_
      · split <;> simp
      · split
        · exact holds
        · trivial
  | runProgram i =>
      rw [at_] at executes
      cases executes
  | decrement i =>
      simp only [at_, Option.some.injEq] at executes
      subst executes
      rw [at_] at marked holds
      refine goesOn _ (.restoreStatus i) _ (by simp) (by simpa [SignalState.setPending] using marked) rfl ?_ trivial
      intro sig
      simp only [SignalState.setPending]
      split
      · exact Int.le_sub_one_of_lt holds
      · exact counted sig
  | restoreStatus i =>
      simp only [at_, Option.some.injEq] at executes
      subst executes
      rw [at_] at marked
      exact goesOn _ (.whileTest i) _ (by simp) (by simpa using marked) rfl counted trivial
  | zero i =>
      simp only [at_, Option.some.injEq] at executes
      subst executes
      rw [at_] at marked
      refine goesOn _ (.forTest (i + 1)) _ (by simp) (by simpa [SignalState.setPending] using marked) rfl ?_ trivial
      intro sig
      simp only [SignalState.setPending]
      split
      · exact Int.le_refl 0
      · exact counted sig
  | clearInTrap =>
      simp only [at_, Option.some.injEq] at executes
      subst executes
      exact ⟨⟨none, .outside, rfl⟩, counted⟩

theorem CallsEntered.statement (entered : CallsEntered failed before) (steps : before.step .statement = some after) :
    CallsEntered failed after := by
  obtain ⟨inner, progress, marked⟩ := entered.progress
  simp only [SignalState.step] at steps
  generalize found : before.calls = calls at progress steps
  cases progress with
  | outside => cases steps
  | entering lastStatus =>
      simp only [Mrsh.execute] at steps
      cases mark : before.inTrap with
      | true =>
          rw [mark, if_pos rfl] at steps
          cases steps
          exact ⟨⟨none, .outside, mark.symm.trans marked⟩, entered.counted⟩
      | false =>
          rw [mark, if_neg Bool.false_ne_true] at steps
          cases steps
          have none : failed = false := marked.symm.trans mark
          exact ⟨⟨some .setInTrap, .inside { at_ := .setInTrap, lastStatus } (by simp) (.inl rfl), none, trivial⟩,
            entered.counted⟩
  | inside call past mark =>
      obtain ⟨none, holds⟩ := marked
      rw [none]
      exact .execute entered.counted past mark holds steps
  | nested i call nested action enters mark =>
      simp only [Mrsh.execute, enters, mark, if_true, Option.some.injEq] at steps
      subst steps
      refine ⟨⟨some call.at_, .inside call ?_ (.inr rfl), ?_⟩, entered.counted⟩
      · rw [action]
        simp
      · rw [action]
        exact marked

theorem CallsEntered.returns {ret : Int} (entered : CallsEntered failed before)
    (steps : before.step (.returns ret) = some after) :
    CallsEntered (failed || decide (ret < 0)) after := by
  obtain ⟨inner, progress, marked⟩ := entered.progress
  simp only [SignalState.step] at steps
  generalize found : before.calls = calls at progress steps
  cases progress with
  | outside => cases steps
  | entering lastStatus => cases steps
  | nested i call nested action enters mark =>
      simp only [enters] at steps
      cases steps
  | inside call past mark =>
      obtain ⟨none, holds⟩ := marked
      cases at_ : call.at_ with
      | runProgram i =>
          rw [at_] at mark holds
          simp only [at_] at steps
          have inTrap : before.inTrap = true := by simpa using mark
          by_cases failure : ret < 0
          · rw [if_pos failure] at steps
            cases steps
            rw [decide_eq_true failure, Bool.or_true]
            exact ⟨⟨_, .outside, inTrap⟩, entered.counted⟩
          · rw [if_neg failure] at steps
            cases steps
            rw [decide_eq_false failure, Bool.or_false, none]
            exact ⟨⟨some (.decrement i), .inside { call with at_ := .decrement i } (by simp) (.inr inTrap), rfl, holds⟩,
              entered.counted⟩
      | _ =>
          simp only [at_] at steps
          cases steps

theorem CallsEntered.enter (entered : CallsEntered failed before) (shell : before.inShellCode = true) :
    CallsEntered failed before.enter := by
  obtain ⟨inner, progress, marked⟩ := entered.progress
  refine ⟨⟨inner, progress.enter shell, ?_⟩, entered.counted⟩
  cases inner with
  | none => exact marked
  | some statement => exact marked

theorem CallsEntered.step (entered : CallsEntered failed before) (steps : before.step event = some after) :
    CallsEntered (failed || event.failed) after := by
  cases event with
  | returns ret => exact entered.returns steps
  | statement =>
      change CallsEntered (failed || false) after
      rw [Bool.or_false]
      exact entered.statement steps
  | deliver sig =>
      change CallsEntered (failed || false) after
      rw [Bool.or_false]
      simp only [SignalState.step, Option.ite_none_right_eq_some, Option.some.injEq] at steps
      obtain ⟨-, rfl⟩ := steps
      exact entered.more rfl rfl (setPending_grown before sig)
  | shellCode traps lastStatus =>
      change CallsEntered (failed || false) after
      rw [Bool.or_false]
      simp only [SignalState.step, Option.ite_none_right_eq_some, Option.some.injEq] at steps
      obtain ⟨-, rfl⟩ := steps
      exact entered.more rfl rfl fun sig => Int.le_refl _
  | runPendingTraps =>
      change CallsEntered (failed || false) after
      rw [Bool.or_false]
      simp only [SignalState.step, Option.ite_none_right_eq_some, Option.some.injEq] at steps
      obtain ⟨shell, rfl⟩ := steps
      exact entered.enter shell
  | runExitTrap =>
      change CallsEntered (failed || false) after
      rw [Bool.or_false]
      simp only [SignalState.step, Option.ite_none_right_eq_some, Option.some.injEq] at steps
      obtain ⟨shell, rfl⟩ := steps
      have counted : CallsEntered failed (before.setPending 0 (before.pendingSigs 0 + 1)) :=
        entered.more rfl rfl (setPending_grown before 0)
      exact counted.enter shell

end

/-! ## What a call runs -/

/-- The innermost call executes statements, and nothing else happens. -/
inductive Executes : SignalState → SignalState → Prop where
  | refl (state : SignalState) : Executes state state
  | step {start between state : SignalState} (executes : start.step .statement = some between)
      (further : Executes between state) : Executes start state

/-- The first trap that is pending and caught. -/
structure NextTrap (state : SignalState) (i : Nat) : Prop where
  pending : 0 < state.pendingSigs i
  caught : (state.traps i).runs = true
  first : ∀ j < i, 0 < state.pendingSigs j → (state.traps j).runs = false

/-- A call from this state gets to the action of the trap that is next. -/
def RunsNextTrap (state : SignalState) : Prop :=
  ∀ i < nsig, NextTrap state i → ∃ reached, Executes state.enter reached ∧ reached.isAt (.runProgram i) = true

def SignalState.callAt (state : SignalState) (at_ : Statement) (lastStatus : Int) : SignalState :=
  { state with calls := [{ at_, lastStatus }] }

theorem Executes.passes {state reached : SignalState} {i : Nat} {lastStatus : Int} (bound : i < nsig)
    (quiet : 0 < state.pendingSigs i → (state.traps i).runs = false)
    (further : Executes ((state.setPending i 0).callAt (.forTest (i + 1)) lastStatus) reached) :
    Executes (state.callAt (.forTest i) lastStatus) reached := by
  have tests : (state.callAt (.forTest i) lastStatus).step .statement =
      some (state.callAt (if i < nsig then .whileTest i else .clearInTrap) lastStatus) := rfl
  rw [if_pos bound] at tests
  refine .step tests ?_
  have loops : (state.callAt (.whileTest i) lastStatus).step .statement =
      some (state.callAt (if 0 < state.pendingSigs i then .ifTrap i else .zero i) lastStatus) := rfl
  have zeroes : Executes (state.callAt (.zero i) lastStatus) reached := .step rfl further
  by_cases pending : 0 < state.pendingSigs i
  · rw [if_pos pending] at loops
    have chooses : (state.callAt (.ifTrap i) lastStatus).step .statement =
        some (state.callAt (if (state.traps i).runs then .runProgram i else .zero i) lastStatus) := rfl
    rw [quiet pending, if_neg Bool.false_ne_true] at chooses
    exact .step loops (.step chooses zeroes)
  · rw [if_neg pending] at loops
    exact .step loops zeroes

theorem NextTrap.executes {state : SignalState} {j count : Nat} {lastStatus : Int} (bound : j + count < nsig)
    (pending : 0 < state.pendingSigs (j + count)) (caught : (state.traps (j + count)).runs = true)
    (first : ∀ k < j + count, j ≤ k → 0 < state.pendingSigs k → (state.traps k).runs = false) :
    ∃ reached, Executes (state.callAt (.forTest j) lastStatus) reached ∧
      reached.isAt (.runProgram (j + count)) = true := by
  induction count generalizing j state with
  | zero =>
      have tests : (state.callAt (.forTest j) lastStatus).step .statement =
          some (state.callAt (if j < nsig then .whileTest j else .clearInTrap) lastStatus) := rfl
      have loops : (state.callAt (.whileTest j) lastStatus).step .statement =
          some (state.callAt (if 0 < state.pendingSigs j then .ifTrap j else .zero j) lastStatus) := rfl
      have chooses : (state.callAt (.ifTrap j) lastStatus).step .statement =
          some (state.callAt (if (state.traps j).runs then .runProgram j else .zero j) lastStatus) := rfl
      rw [Nat.add_zero] at bound pending caught ⊢
      rw [if_pos bound] at tests
      rw [if_pos pending] at loops
      rw [if_pos caught] at chooses
      refine ⟨_, .step tests (.step loops (.step chooses (.refl _))), ?_⟩
      exact beq_self_eq_true _
  | succ count ih =>
      have sum : j + (count + 1) = j + 1 + count := by omega
      have untouched : ∀ k, j < k → (state.setPending j 0).pendingSigs k = state.pendingSigs k :=
        fun k later => if_neg (by omega)
      rw [sum] at pending caught first bound ⊢
      obtain ⟨reached, executes, here⟩ := @ih (state.setPending j 0) (j + 1) bound (by rwa [untouched _ (by omega)])
        caught
        fun k before from_ => by
          rw [untouched k from_]
          exact first k before (by omega)
      exact ⟨reached, .passes (by omega) (first j (by omega) (Nat.le_refl j)) executes, here⟩

theorem runsNextTrap {state : SignalState} (between : state.calls = []) (clear : state.inTrap = false) :
    RunsNextTrap state := by
  intro i bound next
  have tests : state.enter.step .statement =
      if state.inTrap then some { state with calls := state.calls }
      else some { state with calls := { at_ := .setInTrap, lastStatus := 0 } :: state.calls } := rfl
  rw [clear, if_neg Bool.false_ne_true, between] at tests
  have executes := @NextTrap.executes { state with inTrap := true } 0 i state.lastStatus
    (by rwa [Nat.zero_add]) (by rw [Nat.zero_add]; exact next.pending) (by rw [Nat.zero_add]; exact next.caught)
    fun k before _ => next.first k (by rwa [Nat.zero_add] at before)
  rw [Nat.zero_add] at executes
  obtain ⟨reached, looks, here⟩ := executes
  exact ⟨reached, .step tests (.step rfl (.step rfl looks)), here⟩

/-! ## Runs -/

/-- A shell before its first call. -/
structure Unmarked (state : SignalState) : Prop where
  between : state.calls = []
  clear : state.inTrap = false
  counted : ∀ sig, 0 ≤ state.pendingSigs sig

/-- The mark is away, and so a call runs the action of the trap that is next, and `run_exit_trap` the exit trap. -/
structure TrapsRun (state : SignalState) : Prop where
  clear : state.inTrap = false
  pending : RunsNextTrap state
  exit : (state.traps 0).runs = true → ∃ entered reached, state.step .runExitTrap = some entered ∧
    Executes entered reached ∧ reached.isAt (.runProgram 0) = true

theorem entered_of_run {start state : SignalState} {trace : List (SignalState × SignalEvent)} (initial : Unmarked start)
    (run : Traced SignalState.step start trace state) : CallsEntered (trace.any (·.2.failed)) state := by
  have begins : CallsEntered false start := by
    refine ⟨⟨none, ?_, initial.clear⟩, initial.counted⟩
    rw [initial.between]
    exact .outside
  refine @Traced.preserves _ _ _ _ _ _ (fun _ => True)
    (fun trace => CallsEntered (trace.any (·.2.failed))) begins ?_ run
    fun _ _ => trivial
  intro trace before event after entered _ steps
  rw [List.any_cons, Bool.or_comm]
  exact entered.step steps

/-- Between the calls of a run the mark is away, and the traps run, exactly if no action has failed. -/
theorem inTrap_clear_iff (start state : SignalState) (trace : List (SignalState × SignalEvent))
    (initial : Unmarked start) (run : Traced SignalState.step start trace state) (between : state.calls = []) :
    TrapsRun state ↔ ∀ taken ∈ trace, taken.2.failed = false := by
  obtain ⟨⟨inner, progress, marked⟩, counted⟩ := entered_of_run initial run
  have isMarked : state.inTrap = trace.any (·.2.failed) := by
    rw [between] at progress
    cases progress with
    | outside => exact marked
  have noFailure : trace.any (·.2.failed) = false ↔ ∀ taken ∈ trace, taken.2.failed = false := by
    rw [List.any_eq_false]
    simp
  rw [← noFailure, ← isMarked]
  constructor
  · exact TrapsRun.clear
  · intro clear
    refine ⟨clear, runsNextTrap between clear, fun caught => ?_⟩
    have shellCode : state.inShellCode = true := by rw [SignalState.inShellCode, between]
    have counts : 0 < (state.setPending 0 (state.pendingSigs 0 + 1)).pendingSigs 0 := by
      have nonneg := counted 0
      change 0 < state.pendingSigs 0 + 1
      omega
    have next : NextTrap (state.setPending 0 (state.pendingSigs 0 + 1)) 0 := ⟨counts, caught, fun j below => by omega⟩
    obtain ⟨reached, executes, here⟩ :=
      @runsNextTrap (state.setPending 0 (state.pendingSigs 0 + 1)) between clear 0 (by decide) next
    exact ⟨_, reached, if_pos shellCode, executes, here⟩

theorem hangupStart_unmarked : Unmarked hangupStart := ⟨rfl, rfl, fun _ => Int.le_refl 0⟩

/-- The action for a hangup succeeds. -/
theorem inTrap_clear_iff_executed :
    ∃ trace state, Traced SignalState.step hangupStart trace state ∧ completions sighup trace = 1 ∧ TrapsRun state := by
  obtain ⟨trace, state, run, found⟩ := @traceOf_any _ _ SignalState.step hangupStart
    (.deliver sighup :: callUpToHangup ++ .statement :: .returns 0 :: List.replicate 192 .statement)
    (fun ended => decide ((∀ taken ∈ ended.1, taken.2.failed = false) ∧ ended.2.calls.isEmpty = true ∧
      completions sighup ended.1 = 1)) (by decide +kernel)
  obtain ⟨succeeds, between, completed⟩ := of_decide_eq_true found
  have runs := inTrap_clear_iff hangupStart state trace hangupStart_unmarked run (List.isEmpty_iff.mp between)
  exact ⟨trace, state, run, completed, runs.mpr succeeds⟩

/-- The action for a hangup executes `exit`, and the mark stays. -/
theorem inTrap_staysMarked :
    ¬ ∀ (start state : SignalState) (trace : List (SignalState × SignalEvent)), Unmarked start →
      Traced SignalState.step start trace state → state.calls = [] → state.inTrap = false := by
  intro always
  obtain ⟨trace, state, run, found⟩ := @traceOf_any _ _ SignalState.step hangupStart
    (.deliver sighup :: callUpToHangup ++ [.statement, .returns (-4)])
    (fun ended => decide (ended.2.calls.isEmpty = true ∧ ended.2.inTrap = true)) (by decide +kernel)
  obtain ⟨between, marked⟩ := of_decide_eq_true found
  have clear := always hangupStart state trace hangupStart_unmarked run (List.isEmpty_iff.mp between)
  rw [marked] at clear
  cases clear

end Mrsh
