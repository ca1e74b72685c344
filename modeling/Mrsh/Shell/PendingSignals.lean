import Mrsh.Data.Traces
import Mrsh.Shell.Trap

namespace Mrsh

open Mrsh.Data

/-! # Signals that arrive while the pending traps run

`handle_signal` may run between any two statements of `run_pending_traps`. So the function
is followed here statement by statement, with every call of it that is in progress, and the
deliveries are steps of their own.
-/

/-- The statement that a call of `run_pending_traps` is at. -/
inductive Statement where
  | ifInTrap
  | setInTrap
  | saveStatus
  | forTest (i : Nat)
  | whileTest (i : Nat)
  | ifTrap (i : Nat)
  | runProgram (i : Nat)
  | decrement (i : Nat)
  | restoreStatus (i : Nat)
  | zero (i : Nat)
  | clearInTrap
deriving DecidableEq

/-- A call in progress, with its variable `last_status`. -/
structure PendingCall where
  at_ : Statement
  lastStatus : Int

/-- What `run_pending_traps` and `handle_signal` work on. The innermost call comes first. -/
structure SignalState where
  pendingSigs : Nat → Int
  traps : Nat → Trap
  inTrap : Bool
  lastStatus : Int
  calls : List PendingCall

def Trap.runs (trap : Trap) : Bool := trap.set && trap.action == .catch && trap.program.isSome

def SignalState.setPending (state : SignalState) (index : Nat) (count : Int) : SignalState :=
  { state with pendingSigs := fun other => if other = index then count else state.pendingSigs other }

/-- One statement of a call, with the calls around it. The action is no single statement. -/
def execute (state : SignalState) (call : PendingCall) (outer : List PendingCall) : Option SignalState :=
  match call.at_ with
  | .ifInTrap =>
      if state.inTrap then some { state with calls := outer }
      else some { state with calls := { call with at_ := .setInTrap } :: outer }
  | .setInTrap => some { state with inTrap := true, calls := { call with at_ := .saveStatus } :: outer }
  | .saveStatus => some { state with calls := { at_ := .forTest 0, lastStatus := state.lastStatus } :: outer }
  | .forTest i =>
      some { state with calls := { call with at_ := if i < nsig then .whileTest i else .clearInTrap } :: outer }
  | .whileTest i =>
      some { state with calls := { call with at_ := if 0 < state.pendingSigs i then .ifTrap i else .zero i } :: outer }
  | .ifTrap i =>
      -- the loop is left by `break` when the signal is not caught
      some { state with calls := { call with at_ := if (state.traps i).runs then .runProgram i else .zero i } :: outer }
  | .runProgram _ => none
  | .decrement i =>
      some { state.setPending i (state.pendingSigs i - 1) with calls := { call with at_ := .restoreStatus i } :: outer }
  | .restoreStatus i =>
      some { state with lastStatus := call.lastStatus, calls := { call with at_ := .whileTest i } :: outer }
  | .zero i => some { state.setPending i 0 with calls := { call with at_ := .forTest (i + 1) } :: outer }
  | .clearInTrap => some { state with inTrap := false, calls := outer }

inductive SignalEvent where
  /-- `handle_signal` -/
  | deliver (sig : Nat)
  /-- The innermost call executes its next statement. -/
  | statement
  /-- The action of the innermost call ends. -/
  | returns (ret : Int)
  /-- Shell code, in an action or outside every call. -/
  | shellCode (traps : Nat → Trap) (lastStatus : Int)
  | runPendingTraps
  | runExitTrap

/-- Whether shell code runs, outside every call or as the action of the innermost one. -/
def SignalState.inShellCode (state : SignalState) : Bool :=
  match state.calls with
  | [] => true
  | call :: _ => match call.at_ with
    | .runProgram _ => true
    | _ => false

def SignalState.enter (state : SignalState) : SignalState :=
  { state with calls := { at_ := .ifInTrap, lastStatus := 0 } :: state.calls }

def SignalState.step (state : SignalState) : SignalEvent → Option SignalState
  | .deliver sig => if sig < nsig then some (state.setPending sig (state.pendingSigs sig + 1)) else none
  | .statement =>
      match state.calls with
      | [] => none
      | call :: outer => execute state call outer
  | .returns ret =>
      match state.calls with
      | [] => none
      | call :: outer =>
          match call.at_ with
          | .runProgram i =>
              -- a failure returns from the call, which stays marked by `in_trap`
              if ret < 0 then some { state with calls := outer }
              else some { state with calls := { call with at_ := .decrement i } :: outer }
          | _ => none
  | .shellCode traps lastStatus => if state.inShellCode then some { state with traps, lastStatus } else none
  | .runPendingTraps => if state.inShellCode then some state.enter else none
  | .runExitTrap => if state.inShellCode then some (state.setPending 0 (state.pendingSigs 0 + 1)).enter else none

/-! ## What the steps count -/

def SignalEvent.delivers (sig : Nat) : SignalEvent → Bool
  | .deliver other => other == sig
  | _ => false

def SignalEvent.isReturn : SignalEvent → Bool
  | .returns _ => true
  | _ => false

def SignalEvent.failed : SignalEvent → Bool
  | .returns ret => ret < 0
  | _ => false

/-- Whether the innermost call is at the statement. -/
def SignalState.isAt (state : SignalState) (statement : Statement) : Bool :=
  match state.calls with
  | [] => false
  | call :: _ => call.at_ == statement

def deliveries (sig : Nat) (trace : List (SignalState × SignalEvent)) : Nat :=
  trace.countP fun taken => taken.2.delivers sig

/-- The executions of the action that have ended. -/
def completions (sig : Nat) (trace : List (SignalState × SignalEvent)) : Nat :=
  trace.countP fun taken => taken.1.isAt (.runProgram sig) && taken.2.isReturn

/-- A delivery between the test that ends the loop and the statement that zeroes the counter. -/
def inWindow (sig : Nat) (taken : SignalState × SignalEvent) : Bool :=
  taken.1.isAt (.zero sig) && taken.2.delivers sig

def dropped (sig : Nat) (trace : List (SignalState × SignalEvent)) : Nat := trace.countP (inWindow sig)

/-- The signal is caught whenever it is pending, with an action that succeeds. -/
structure StaysCaught (sig : Nat) (taken : SignalState × SignalEvent) : Prop where
  runs : 0 < taken.1.pendingSigs sig → (taken.1.traps sig).runs = true
  succeeds : taken.1.isAt (.runProgram sig) = true → taken.2.failed = false

/-! ## The calls in progress -/

/-- The calls in progress when the outer one is at the statement, if it has passed the
test of `in_trap`. A call from its action is never past that test. -/
inductive InProgress (inTrap : Bool) : Option Statement → List PendingCall → Prop where
  | outside : InProgress inTrap none []
  | entering (lastStatus : Int) : InProgress inTrap none [{ at_ := .ifInTrap, lastStatus }]
  | inside (call : PendingCall) (entered : call.at_ ≠ .ifInTrap) (marked : call.at_ = .setInTrap ∨ inTrap = true) :
      InProgress inTrap (some call.at_) [call]
  | nested (i : Nat) (call nested : PendingCall) (action : call.at_ = .runProgram i) (enters : nested.at_ = .ifInTrap)
      (marked : inTrap = true) : InProgress inTrap (some (.runProgram i)) [nested, call]

/-- Where the loop is with the signal. -/
inductive Phase where
  /-- Elsewhere. -/
  | away
  /-- After a test that has found it pending. -/
  | taken
  /-- After its action. -/
  | done
  /-- Before its counter is zeroed. -/
  | emptying
deriving DecidableEq

def phase (sig : Nat) : Option Statement → Phase
  | some (.ifTrap i) => if i = sig then .taken else .away
  | some (.runProgram i) => if i = sig then .taken else .away
  | some (.decrement i) => if i = sig then .done else .away
  | some (.zero i) => if i = sig then .emptying else .away
  | _ => .away

theorem phase_emptying {sig : Nat} {statement : Statement} :
    phase sig (some statement) = .emptying ↔ statement = .zero sig := by
  cases statement with
  | zero i =>
      by_cases same : i = sig
      · simp [phase, same]
      · simp [phase, same]
  | ifTrap i => by_cases same : i = sig <;> simp [phase, same]
  | runProgram i => by_cases same : i = sig <;> simp [phase, same]
  | decrement i => by_cases same : i = sig <;> simp [phase, same]
  | _ => simp [phase]

/-- How the completed executions, the pending, the dropped and all deliveries are related. -/
def Balances (completed pending dropped delivered : Int) : Phase → Prop
  | .away => 0 ≤ pending ∧ completed + pending + dropped = delivered
  | .taken => 0 < pending ∧ completed + pending + dropped = delivered
  | .done => 0 < pending ∧ completed + pending + dropped = delivered + 1
  | .emptying => completed + dropped = delivered

/-- The invariant of a run. -/
def Accounted (sig : Nat) (trace : List (SignalState × SignalEvent)) (state : SignalState) : Prop :=
  ∃ inner, InProgress state.inTrap inner state.calls ∧
    Balances (completions sig trace) (state.pendingSigs sig) (dropped sig trace) (deliveries sig trace)
      (phase sig inner)

section

variable {sig : Nat} {trace : List (SignalState × SignalEvent)} {before after : SignalState} {event : SignalEvent}

theorem deliveries_cons (taken : SignalState × SignalEvent) :
    deliveries sig (taken :: trace) = deliveries sig trace + if taken.2.delivers sig then 1 else 0 :=
  List.countP_cons

theorem completions_cons (taken : SignalState × SignalEvent) :
    completions sig (taken :: trace) =
      completions sig trace + if taken.1.isAt (.runProgram sig) && taken.2.isReturn then 1 else 0 := List.countP_cons

theorem dropped_cons (taken : SignalState × SignalEvent) :
    dropped sig (taken :: trace) = dropped sig trace + if inWindow sig taken then 1 else 0 := List.countP_cons

/-- A step that is neither a delivery of the signal nor the end of its action counts nothing. -/
theorem counts_other (noDelivery : event.delivers sig = false) (noReturn : event.isReturn = false) :
    completions sig ((before, event) :: trace) = completions sig trace ∧
      dropped sig ((before, event) :: trace) = dropped sig trace ∧
      deliveries sig ((before, event) :: trace) = deliveries sig trace := by
  refine ⟨?_, ?_, ?_⟩
  · simp [completions_cons, noReturn]
  · simp [dropped_cons, inWindow, noDelivery]
  · simp [deliveries_cons, noDelivery]

/-- The innermost call is at its `zero` statement exactly when the outer one is. -/
theorem InProgress.isAt_zero {inTrap : Bool} {inner : Option Statement} {calls : List PendingCall}
    (progress : InProgress inTrap inner calls) (found : before.calls = calls) :
    before.isAt (.zero sig) = true ↔ phase sig inner = .emptying := by
  unfold SignalState.isAt
  rw [found]
  cases progress with
  | outside => simp [phase]
  | entering lastStatus => simp [phase]
  | inside call entered marked => simp [phase_emptying]
  | nested i call nested action enters marked => simp [enters, phase_emptying]

theorem Balances.deliver {completed pending dropped delivered : Int} {now : Phase}
    (balances : Balances completed pending dropped delivered now) :
    Balances completed (pending + 1) (dropped + if now = .emptying then 1 else 0) (delivered + 1) now := by
  cases now <;> simp [Balances] at * <;> omega

/-- A test that finds nothing pending is followed by the zeroing of an empty counter. -/
theorem Balances.whileTest {completed dropped delivered : Int} {i : Nat}
    (balances : Balances completed (before.pendingSigs sig) dropped delivered (phase sig (some (.whileTest i)))) :
    Balances completed (before.pendingSigs sig) dropped delivered
      (phase sig (some (if 0 < before.pendingSigs i then .ifTrap i else .zero i))) := by
  by_cases same : i = sig
  · subst same
    by_cases pending : 0 < before.pendingSigs i
    · simp only [phase, Balances, pending, if_true] at balances ⊢
      exact ⟨trivial, balances.2⟩
    · simp only [phase, Balances, pending, if_true, if_false] at balances ⊢
      omega
  · by_cases pending : 0 < before.pendingSigs i
    · simpa [phase, pending, same] using balances
    · simpa [phase, pending, same] using balances

theorem Balances.ifTrap {completed dropped delivered : Int} {i : Nat}
    (balances : Balances completed (before.pendingSigs sig) dropped delivered (phase sig (some (.ifTrap i))))
    (runs : 0 < before.pendingSigs sig → (before.traps sig).runs = true) :
    Balances completed (before.pendingSigs sig) dropped delivered
      (phase sig (some (if (before.traps i).runs then .runProgram i else .zero i))) := by
  by_cases same : i = sig
  · subst same
    simp only [phase, if_true, Balances] at balances
    rw [runs balances.1]
    simpa [phase, Balances] using balances
  · by_cases caught : (before.traps i).runs = true
    · simpa [phase, caught, same] using balances
    · simpa [phase, caught, same] using balances

theorem Balances.decrement {completed dropped delivered : Int} {i : Nat}
    (balances : Balances completed (before.pendingSigs sig) dropped delivered (phase sig (some (.decrement i)))) :
    Balances completed ((before.setPending i (before.pendingSigs i - 1)).pendingSigs sig) dropped delivered
      (phase sig (some (.restoreStatus i))) := by
  by_cases same : i = sig
  · subst same
    simp only [phase, if_true, Balances, SignalState.setPending] at *
    omega
  · simpa [phase, same, Ne.symm same, SignalState.setPending] using balances

theorem Balances.zero {completed dropped delivered : Int} {i : Nat}
    (balances : Balances completed (before.pendingSigs sig) dropped delivered (phase sig (some (.zero i)))) :
    Balances completed ((before.setPending i 0).pendingSigs sig) dropped delivered
      (phase sig (some (.forTest (i + 1)))) := by
  by_cases same : i = sig
  · subst same
    simp only [phase, if_true, Balances, SignalState.setPending] at *
    omega
  · simpa [phase, same, Ne.symm same, SignalState.setPending] using balances

theorem Accounted.deliver {other : Nat} (accounted : Accounted sig trace before)
    (steps : before.step (.deliver other) = some after) : Accounted sig ((before, .deliver other) :: trace) after := by
  simp only [SignalState.step, Option.ite_none_right_eq_some, Option.some.injEq] at steps
  obtain ⟨-, rfl⟩ := steps
  obtain ⟨inner, progress, balances⟩ := accounted
  refine ⟨inner, progress, ?_⟩
  by_cases same : other = sig
  · subst same
    have window : inWindow other (before, .deliver other) = true ↔ phase other inner = .emptying := by
      simp [inWindow, SignalEvent.delivers, progress.isAt_zero rfl]
    have added := balances.deliver
    rw [completions_cons, dropped_cons, deliveries_cons]
    by_cases emptying : phase other inner = .emptying
    · simpa [window, emptying, SignalEvent.isReturn, SignalEvent.delivers, SignalState.setPending] using added
    · simpa [window, emptying, SignalEvent.isReturn, SignalEvent.delivers, SignalState.setPending] using added
  · have noDelivery : (SignalEvent.deliver other).delivers sig = false := by simp [SignalEvent.delivers, same]
    obtain ⟨completed, drops, delivered⟩ := @counts_other sig trace before (.deliver other) noDelivery rfl
    have untouched : (before.setPending other (before.pendingSigs other + 1)).pendingSigs sig =
        before.pendingSigs sig := by
      simp [SignalState.setPending, Ne.symm same]
    rw [completed, drops, delivered, untouched]
    exact balances

/-- A step that counts nothing keeps the accounts when it leads to calls that balance. -/
theorem Accounted.other {inner : Option Statement} (noDelivery : event.delivers sig = false)
    (noReturn : event.isReturn = false) (progress : InProgress after.inTrap inner after.calls)
    (balances : Balances (completions sig trace) (after.pendingSigs sig) (dropped sig trace) (deliveries sig trace)
      (phase sig inner)) : Accounted sig ((before, event) :: trace) after := by
  obtain ⟨completed, drops, delivered⟩ := @counts_other sig trace before event noDelivery noReturn
  refine ⟨inner, progress, ?_⟩
  rw [completed, drops, delivered]
  exact balances

theorem Accounted.execute {call : PendingCall} (entered : call.at_ ≠ .ifInTrap)
    (marked : call.at_ = .setInTrap ∨ before.inTrap = true)
    (balances : Balances (completions sig trace) (before.pendingSigs sig) (dropped sig trace) (deliveries sig trace)
      (phase sig (some call.at_)))
    (runs : 0 < before.pendingSigs sig → (before.traps sig).runs = true)
    (executes : execute before call [] = some after) : Accounted sig ((before, .statement) :: trace) after := by
  have goesOn : ∀ (state : SignalState) (at_ : Statement) (lastStatus : Int), at_ ≠ .ifInTrap → state.inTrap = true →
      state.calls = [{ at_, lastStatus }] →
      Balances (completions sig trace) (state.pendingSigs sig) (dropped sig trace) (deliveries sig trace)
        (phase sig (some at_)) →
      Accounted sig ((before, .statement) :: trace) state := by
    intro state at_ lastStatus entered marked calls balances
    refine .other rfl rfl ?_ balances
    rw [calls]
    exact .inside { at_, lastStatus } entered (.inr marked)
  unfold Mrsh.execute at executes
  cases at_ : call.at_ with
  | ifInTrap => exact absurd at_ entered
  | setInTrap =>
      simp only [at_, Option.some.injEq] at executes
      subst executes
      rw [at_] at balances
      exact goesOn _ .saveStatus _ (by simp) rfl rfl balances
  | saveStatus =>
      simp only [at_, Option.some.injEq] at executes
      subst executes
      rw [at_] at balances marked
      exact goesOn _ (.forTest 0) _ (by simp) (by simpa using marked) rfl balances
  | forTest i =>
      simp only [at_, Option.some.injEq] at executes
      subst executes
      rw [at_] at balances marked
      refine goesOn _ (if i < nsig then .whileTest i else .clearInTrap) _ ?_ (by simpa using marked) rfl ?_
      · split <;> simp
      · split <;> exact balances
  | whileTest i =>
      simp only [at_, Option.some.injEq] at executes
      subst executes
      rw [at_] at balances marked
      refine goesOn _ (if 0 < before.pendingSigs i then .ifTrap i else .zero i) _ ?_ (by simpa using marked) rfl ?_
      · split <;> simp
      · exact balances.whileTest
  | ifTrap i =>
      simp only [at_, Option.some.injEq] at executes
      subst executes
      rw [at_] at balances marked
      refine goesOn _ (if (before.traps i).runs then .runProgram i else .zero i) _ ?_ (by simpa using marked) rfl ?_
      · split <;> simp
      · exact balances.ifTrap runs
  | runProgram i =>
      rw [at_] at executes
      cases executes
  | decrement i =>
      simp only [at_, Option.some.injEq] at executes
      subst executes
      rw [at_] at balances marked
      exact goesOn _ (.restoreStatus i) _ (by simp)
        (by simpa [SignalState.setPending] using marked) rfl balances.decrement
  | restoreStatus i =>
      simp only [at_, Option.some.injEq] at executes
      subst executes
      rw [at_] at balances marked
      exact goesOn _ (.whileTest i) _ (by simp) (by simpa using marked) rfl balances
  | zero i =>
      simp only [at_, Option.some.injEq] at executes
      subst executes
      rw [at_] at balances marked
      exact goesOn _ (.forTest (i + 1)) _ (by simp) (by simpa [SignalState.setPending] using marked) rfl balances.zero
  | clearInTrap =>
      simp only [at_, Option.some.injEq] at executes
      subst executes
      rw [at_] at balances
      exact .other rfl rfl .outside balances

theorem Accounted.statement (accounted : Accounted sig trace before)
    (runs : 0 < before.pendingSigs sig → (before.traps sig).runs = true)
    (steps : before.step .statement = some after) : Accounted sig ((before, .statement) :: trace) after := by
  obtain ⟨inner, progress, balances⟩ := accounted
  simp only [SignalState.step] at steps
  generalize found : before.calls = calls at progress steps
  cases progress with
  | outside => cases steps
  | entering lastStatus =>
      simp only [Mrsh.execute] at steps
      cases marked : before.inTrap with
      | true =>
          rw [marked, if_pos rfl] at steps
          cases steps
          exact .other rfl rfl .outside balances
      | false =>
          rw [marked, if_neg Bool.false_ne_true] at steps
          cases steps
          exact .other rfl rfl (.inside { at_ := .setInTrap, lastStatus } (by simp) (.inl rfl)) balances
  | inside call entered marked => exact .execute entered marked balances runs steps
  | nested i call nested action enters marked =>
      simp only [Mrsh.execute, enters, marked, if_true, Option.some.injEq] at steps
      subst steps
      rw [← action] at balances
      refine .other rfl rfl (.inside call ?_ (.inr rfl)) balances
      simp [action]

theorem Accounted.returns {ret : Int} (accounted : Accounted sig trace before)
    (succeeds : before.isAt (.runProgram sig) = true → 0 ≤ ret) (steps : before.step (.returns ret) = some after) :
    Accounted sig ((before, .returns ret) :: trace) after := by
  obtain ⟨inner, progress, balances⟩ := accounted
  simp only [SignalState.step] at steps
  generalize found : before.calls = calls at progress steps
  cases progress with
  | outside => cases steps
  | entering lastStatus => cases steps
  | nested i call nested action enters marked =>
      simp only [enters] at steps
      cases steps
  | inside call entered marked =>
      cases at_ : call.at_ with
      | runProgram i =>
          have here : before.isAt (.runProgram sig) = true ↔ i = sig := by
            simp [SignalState.isAt, found, at_]
          have noDelivery : deliveries sig ((before, .returns ret) :: trace) = deliveries sig trace := by
            simp [deliveries_cons, SignalEvent.delivers]
          have noDrop : dropped sig ((before, .returns ret) :: trace) = dropped sig trace := by
            simp [dropped_cons, inWindow, SignalEvent.delivers]
          have completed : completions sig ((before, .returns ret) :: trace) =
              completions sig trace + if i = sig then 1 else 0 := by
            simp [completions_cons, SignalEvent.isReturn, here]
          rw [at_] at balances marked
          simp only [at_] at steps
          by_cases failed : ret < 0
          · rw [if_pos failed] at steps
            cases steps
            have different : i ≠ sig := fun same => absurd (succeeds (here.mpr same)) (by omega)
            refine ⟨none, .outside, ?_⟩
            rw [noDelivery, noDrop, completed, if_neg different]
            simpa [phase, different] using balances
          · rw [if_neg failed] at steps
            cases steps
            have inside := InProgress.inside { call with at_ := .decrement i } (by simp) (.inr (by simpa using marked))
            refine ⟨some (.decrement i), inside, ?_⟩
            rw [noDelivery, noDrop, completed]
            by_cases same : i = sig
            · simp only [phase, same, if_true, Balances] at balances ⊢
              push_cast
              omega
            · simpa [phase, same] using balances
      | _ =>
          simp only [at_] at steps
          cases steps

theorem InProgress.enter {inTrap : Bool} {inner : Option Statement} {state : SignalState}
    (progress : InProgress inTrap inner state.calls) (shell : state.inShellCode = true) :
    InProgress inTrap inner state.enter.calls := by
  change InProgress inTrap inner ({ at_ := .ifInTrap, lastStatus := 0 } :: state.calls)
  unfold SignalState.inShellCode at shell
  generalize state.calls = calls at progress shell
  cases progress with
  | outside => exact .entering 0
  | entering lastStatus => cases shell
  | nested i call nested action enters marked =>
      simp [enters] at shell
  | inside call entered marked =>
      cases at_ : call.at_ with
      | runProgram i => exact .nested i call _ at_ rfl (by simpa [at_] using marked)
      | _ =>
          simp [at_] at shell

theorem Accounted.step (signal : sig ≠ 0) (accounted : Accounted sig trace before)
    (stays : StaysCaught sig (before, event)) (steps : before.step event = some after) :
    Accounted sig ((before, event) :: trace) after := by
  cases event with
  | deliver other => exact accounted.deliver steps
  | statement => exact accounted.statement stays.runs steps
  | returns ret => exact accounted.returns (fun here => by simpa [SignalEvent.failed] using stays.succeeds here) steps
  | shellCode traps lastStatus =>
      obtain ⟨inner, progress, balances⟩ := accounted
      simp only [SignalState.step, Option.ite_none_right_eq_some, Option.some.injEq] at steps
      obtain ⟨-, rfl⟩ := steps
      exact .other rfl rfl progress balances
  | runPendingTraps =>
      obtain ⟨inner, progress, balances⟩ := accounted
      simp only [SignalState.step, Option.ite_none_right_eq_some, Option.some.injEq] at steps
      obtain ⟨shell, rfl⟩ := steps
      exact .other rfl rfl (progress.enter shell) balances
  | runExitTrap =>
      obtain ⟨inner, progress, balances⟩ := accounted
      simp only [SignalState.step, Option.ite_none_right_eq_some, Option.some.injEq] at steps
      obtain ⟨shell, rfl⟩ := steps
      have entered := progress.enter shell
      refine .other rfl rfl entered ?_
      have untouched : (before.setPending 0 (before.pendingSigs 0 + 1)).enter.pendingSigs sig =
          before.pendingSigs sig := by
        simp [SignalState.setPending, SignalState.enter, signal]
      rw [untouched]
      exact balances

end

/-- No call is in progress, and the signal is not pending. -/
structure AtRest (sig : Nat) (state : SignalState) : Prop where
  between : state.calls = []
  nothing : state.pendingSigs sig = 0

/-- Between the calls, the executions of the action and what is pending make up the deliveries
exactly when none was made after the test that ends the loop and before its counter is
zeroed. -/
theorem pendingSignals_balance (sig : Nat) (signal : sig ≠ 0) (start state : SignalState)
    (trace : List (SignalState × SignalEvent)) (quiet : AtRest sig start)
    (run : Traced SignalState.step start trace state) (stays : ∀ taken ∈ trace, StaysCaught sig taken)
    (between : state.calls = []) :
    completions sig trace + state.pendingSigs sig = deliveries sig trace ↔
      ∀ taken ∈ trace, ¬ inWindow sig taken = true := by
  have initial : Accounted sig [] start := by
    refine ⟨none, ?_, ?_⟩
    · rw [quiet.between]
      exact .outside
    · simp [phase, Balances, quiet.nothing, completions, dropped, deliveries]
  obtain ⟨inner, progress, balances⟩ := run.preserves initial
    (fun trace before event after accounted stays steps => accounted.step signal stays steps) stays
  rw [between] at progress
  cases progress with
  | outside =>
      obtain ⟨-, count⟩ := balances
      rw [← List.countP_eq_zero]
      change _ ↔ dropped sig trace = 0
      omega

instance (sig : Nat) (taken : SignalState × SignalEvent) : Decidable (StaysCaught sig taken) :=
  decidable_of_iff ((0 < taken.1.pendingSigs sig → (taken.1.traps sig).runs = true) ∧
      (taken.1.isAt (.runProgram sig) = true → taken.2.failed = false))
    ⟨fun stays => ⟨stays.1, stays.2⟩, fun stays => ⟨stays.runs, stays.succeeds⟩⟩

/-- A shell that catches `SIGHUP`, before any call. -/
def hangupStart : SignalState :=
  { pendingSigs := fun _ => 0
    traps := fun sig =>
      if sig = sighup then { set := true, action := .catch, program := some ⟨1, ⟨[]⟩⟩ }
      else { set := false, action := .default, program := none }
    inTrap := false, lastStatus := 0, calls := [] }

/-- The events of a call up to the test for `SIGHUP`. -/
def callUpToHangup : List SignalEvent := .runPendingTraps :: List.replicate 8 .statement

/-- A delivery before the call. -/
theorem pendingSignals_balance_executed :
    ∃ trace state, Traced SignalState.step hangupStart trace state ∧ deliveries sighup trace = 1 ∧
      (completions sighup trace + state.pendingSigs sighup : Int) = deliveries sighup trace := by
  obtain ⟨trace, state, run, found⟩ := @traceOf_any _ _ SignalState.step hangupStart
    (.deliver sighup :: callUpToHangup ++ .statement :: .returns 0 :: List.replicate 192 .statement)
    (fun ended => decide ((∀ taken ∈ ended.1, StaysCaught sighup taken) ∧
      (∀ taken ∈ ended.1, ¬ inWindow sighup taken = true) ∧ ended.2.calls.isEmpty = true ∧
      deliveries sighup ended.1 = 1)) (by decide +kernel)
  obtain ⟨stays, outside, between, delivered⟩ := of_decide_eq_true found
  have balance := pendingSignals_balance sighup (by decide) hangupStart state trace ⟨rfl, rfl⟩ run stays
    (List.isEmpty_iff.mp between)
  exact ⟨trace, state, run, delivered, balance.mpr outside⟩

/-- A delivery after the test that finds nothing pending is zeroed with the counter. -/
theorem pendingSignals_lost :
    ¬ ∀ (sig : Nat) (start state : SignalState) (trace : List (SignalState × SignalEvent)), sig ≠ 0 → AtRest sig start →
      Traced SignalState.step start trace state → (∀ taken ∈ trace, StaysCaught sig taken) → state.calls = [] →
      (completions sig trace + state.pendingSigs sig : Int) = deliveries sig trace := by
  intro always
  obtain ⟨trace, state, run, found⟩ := @traceOf_any _ _ SignalState.step hangupStart
    (callUpToHangup ++ .deliver sighup :: List.replicate 189 .statement)
    (fun ended => decide ((∀ taken ∈ ended.1, StaysCaught sighup taken) ∧ ended.2.calls.isEmpty = true ∧
      ¬ (completions sighup ended.1 + ended.2.pendingSigs sighup : Int) = deliveries sighup ended.1))
        (by decide +kernel)
  obtain ⟨stays, between, differs⟩ := of_decide_eq_true found
  exact differs (always sighup hangupStart state trace (by decide) ⟨rfl, rfl⟩ run stays (List.isEmpty_iff.mp between))

/-! ## The calls of the shell

A call of `runPendingTraps` takes these steps, where the signals that have arrived are
delivered before each test of a counter.
-/

section

variable {World : Type}

def Shell.signalState (shell : Shell World) (calls : List PendingCall) : SignalState where
  pendingSigs := shell.pendingSigs
  traps := shell.traps
  inTrap := shell.inTrap
  lastStatus := shell.lastStatus
  calls := calls

/-- The steps lead from one state to the other. -/
def GetsTo (start state : SignalState) : Prop := ∃ trace, Traced SignalState.step start trace state

theorem GetsTo.refl (state : SignalState) : GetsTo state state := ⟨[], .nil⟩

theorem GetsTo.trans {start between state : SignalState} (first : GetsTo start between)
    (second : GetsTo between state) :
    GetsTo start state := by
  obtain ⟨earlier, run⟩ := first
  obtain ⟨later, further⟩ := second
  exact ⟨later ++ earlier, run.trans further⟩

theorem GetsTo.step {start between state : SignalState} {event : SignalEvent}
    (steps : start.step event = some between) (further : GetsTo between state) : GetsTo start state :=
  .trans ⟨_, .single steps⟩ further

theorem countSignals_getsTo (start : SignalState) (sigs : List Nat) (known : ∀ sig ∈ sigs, sig < nsig) :
    GetsTo start { start with pendingSigs := sigs.foldl countSignal start.pendingSigs } := by
  induction sigs generalizing start with
  | nil => exact .refl start
  | cons sig sigs ih =>
      have counts : (fun other => if other = sig then start.pendingSigs sig + 1 else start.pendingSigs other) =
          countSignal start.pendingSigs sig := by
        funext other
        by_cases same : other = sig
        · simp [countSignal, same]
        · simp [countSignal, same]
      have delivered : start.step (.deliver sig) =
          some { start with pendingSigs := countSignal start.pendingSigs sig } := by
        rw [SignalState.step, if_pos (known sig List.mem_cons_self), SignalState.setPending, counts]
      exact .step delivered (ih _ fun other member => known other (List.mem_cons_of_mem sig member))

/-- The action of a trap changes the counters and `in_trap` only through the calls that it makes. -/
def ActsAsShellCode (runProgram : Program → Exec World Int) : Prop :=
  ∀ {program : Program} {shell after : Shell World} {ret : Int} {calls : List PendingCall},
    Exec.run (runAction (runProgram program)) shell = .done ret after →
    (shell.signalState calls).inShellCode = true → GetsTo (shell.signalState calls) (after.signalState calls)

variable [System World]

theorem handleSignals_getsTo (shell : Shell World) (calls : List PendingCall) :
    ∃ after, Leaf.run handleSignals shell = .done () after ∧
      GetsTo (shell.signalState calls) (after.signalState calls) := by
  refine ⟨_, rfl, ?_⟩
  have known : ∀ sig ∈ (System.signals shell.world).1.filter (· < nsig), sig < nsig := by
    intro sig member
    exact of_decide_eq_true (List.mem_filter.mp member).2
  exact countSignals_getsTo (shell.signalState calls) _ known

variable {runProgram : Program → Exec World Int} {lastStatus : Int} {shell after : Shell World} {ok : Bool}
  {outer : List PendingCall}

theorem runs_eq_false {trap : Trap}
    (found : (if trap.set && trap.action == .catch then trap.program else none) = none) :
    trap.runs = false := by
  unfold Trap.runs
  by_cases caught : (trap.set && trap.action == .catch) = true
  · rw [if_pos caught] at found
    rw [found, Option.isSome_none, Bool.and_false]
  · rw [Bool.not_eq_true] at caught
    rw [caught, Bool.false_and]

theorem runs_eq_true {trap : Trap} {program : TrapProgram}
    (found : (if trap.set && trap.action == .catch then trap.program else none) = some program) : trap.runs = true := by
  unfold Trap.runs
  by_cases caught : (trap.set && trap.action == .catch) = true
  · rw [if_pos caught] at found
    rw [caught, found, Option.isSome_some, Bool.true_and]
  · rw [if_neg caught] at found
    cases found

omit [System World] in
theorem completes_getsTo {index : Nat} {ret : Int} (succeeded : ¬ ret < 0) :
    GetsTo (shell.signalState ({ at_ := .runProgram index, lastStatus } :: outer))
      ({ shell with
          pendingSigs := fun other => if other = index then shell.pendingSigs index - 1 else shell.pendingSigs other
          lastStatus : Shell World }.signalState ({ at_ := .whileTest index, lastStatus } :: outer)) := by
  have returns : (shell.signalState ({ at_ := .runProgram index, lastStatus } :: outer)).step (.returns ret) =
      some (shell.signalState ({ at_ := .decrement index, lastStatus } :: outer)) := if_neg succeeded
  apply GetsTo.step returns
  apply @GetsTo.step _ _ _ .statement rfl
  exact @GetsTo.step _ _ _ .statement rfl (.refl _)

/-- The loop of one signal ends before its counter is zeroed, or with the call. -/
theorem runPendingTrap_getsTo (acts : ActsAsShellCode runProgram) {index fuel : Nat}
    (ended : Exec.run (runPendingTrap runProgram lastStatus index fuel) shell = .done ok after) :
    GetsTo (shell.signalState ({ at_ := .whileTest index, lastStatus } :: outer))
      (after.signalState (if ok then { at_ := .zero index, lastStatus } :: outer else outer)) := by
  induction fuel generalizing shell with
  | zero => cases ended
  | succ fuel ih =>
      obtain ⟨counted, handles, delivered⟩ :=
        handleSignals_getsTo shell ({ at_ := .whileTest index, lastStatus } :: outer)
      apply delivered.trans
      simp only [runPendingTrap, Exec.run_bind, Exec.run_leaf, handles, Outcome.andThen_done, Leaf.run_gets,
        Exec.run_ite] at ended
      have tests : (counted.signalState ({ at_ := .whileTest index, lastStatus } :: outer)).step .statement =
          some (counted.signalState
            ({ at_ := if 0 < counted.pendingSigs index then .ifTrap index else .zero index, lastStatus } :: outer)) :=
              rfl
      apply GetsTo.step tests
      by_cases pending : 0 < counted.pendingSigs index
      · rw [if_neg (by omega)] at ended
        rw [if_pos pending]
        have chooses : (counted.signalState ({ at_ := .ifTrap index, lastStatus } :: outer)).step .statement =
            some (counted.signalState
              ({ at_ := if (counted.traps index).runs then .runProgram index else .zero index, lastStatus } :: outer))
                :=
          rfl
        apply GetsTo.step chooses
        cases found : if (counted.traps index).set && (counted.traps index).action == .catch then
            (counted.traps index).program else none with
        | none =>
            rw [found] at ended
            cases ended
            rw [runs_eq_false found]
            exact .refl _
        | some program =>
            rw [found] at ended
            rw [runs_eq_true found]
            simp only [Exec.run_bind, Exec.run_leaf, Leaf.run_gets, Outcome.andThen_done] at ended
            cases freed : counted.freedPrograms.contains program.serial with
            | true =>
                rw [freed] at ended
                cases ended
            | false =>
                have unfreed : Leaf.run (assertThat (!false)) counted = .done () counted := rfl
                rw [freed, unfreed, Outcome.andThen_done] at ended
                obtain ⟨ret, acted, ran, ended⟩ := Outcome.andThen_eq_done.mp ended
                apply (acts ran rfl).trans
                by_cases failed : ret < 0
                · rw [if_pos failed] at ended
                  cases ended
                  exact @GetsTo.step _ _ _ (.returns ret) (if_pos failed) (.refl _)
                · rw [if_neg failed] at ended
                  exact (completes_getsTo failed).trans (ih ended)
      · rw [if_pos (by omega)] at ended
        rw [if_neg pending]
        cases ended
        exact .refl _

theorem runPendingTrapsLoop_getsTo (acts : ActsAsShellCode runProgram) {fuel count index : Nat}
    (last : index + count = nsig)
    (ended : Exec.run (runPendingTrapsLoop runProgram lastStatus fuel (List.range' index count)) shell =
      .done ok after) :
    GetsTo (shell.signalState ({ at_ := .forTest index, lastStatus } :: outer)) (after.signalState outer) := by
  have tests : (shell.signalState ({ at_ := .forTest index, lastStatus } :: outer)).step .statement =
      some (shell.signalState
        ({ at_ := if index < nsig then .whileTest index else .clearInTrap, lastStatus } :: outer)) := rfl
  apply GetsTo.step tests
  induction count generalizing index shell with
  | zero =>
      rw [if_neg (by omega)]
      cases ended
      exact @GetsTo.step _ _ _ .statement rfl (.refl _)
  | succ count ih =>
      rw [if_pos (by omega)]
      rw [List.range'_succ, runPendingTrapsLoop] at ended
      obtain ⟨going, looped, ran, ended⟩ := Exec.run_bind_done.mp ended
      have loop := @runPendingTrap_getsTo _ _ _ lastStatus _ _ _ outer acts _ _ ran
      cases going with
      | false =>
          cases ended
          exact loop
      | true =>
          apply loop.trans
          obtain ⟨_, zeroed, zeroes, ended⟩ := Exec.run_bind_done.mp ended
          cases zeroes
          apply @GetsTo.step _ _ _ .statement rfl
          apply @GetsTo.step _ _ _ .statement rfl
          exact ih (by omega) ended rfl

theorem runPendingTraps_getsTo (acts : ActsAsShellCode runProgram) {fuel : Nat} {calls : List PendingCall}
    (ended : Exec.run (runPendingTraps fuel runProgram) shell = .done ok after) :
    GetsTo (shell.signalState calls).enter (after.signalState calls) := by
  simp only [runPendingTraps, Exec.run_bind, Exec.run_leaf, Leaf.run_gets, Outcome.andThen_done, Exec.run_ite] at ended
  cases inside : shell.inTrap with
  | true =>
      rw [inside, if_pos rfl] at ended
      cases ended
      exact @GetsTo.step _ _ _ .statement (if_pos inside) (.refl _)
  | false =>
      rw [inside, if_neg Bool.false_ne_true] at ended
      obtain ⟨_, marked, marks, ended⟩ := Outcome.andThen_eq_done.mp ended
      cases marks
      rw [List.range_eq_range'] at ended
      have tests : (shell.signalState calls).enter.step .statement =
          some (shell.signalState ({ at_ := .setInTrap, lastStatus := 0 } :: calls)) :=
        if_neg (inside.trans_ne Bool.false_ne_true)
      apply GetsTo.step tests
      apply @GetsTo.step _ _ _ .statement rfl
      apply @GetsTo.step _ _ _ .statement rfl
      exact runPendingTrapsLoop_getsTo acts (Nat.zero_add nsig) ended

/-- A call from shell code, as the events of the system have it. -/
theorem runPendingTraps_steps (acts : ActsAsShellCode runProgram) {fuel : Nat} {calls : List PendingCall}
    (shellCode : (shell.signalState calls).inShellCode = true)
    (ended : Exec.run (runPendingTraps fuel runProgram) shell = .done ok after) :
    GetsTo (shell.signalState calls) (after.signalState calls) :=
  @GetsTo.step _ _ _ .runPendingTraps (if_pos shellCode) (runPendingTraps_getsTo acts ended)

end

/-- A shell in which `SIGHUP` is pending. -/
def hangupShell : Shell Machine :=
  { mrshStateCreate [] Machine.isolated with
    traps := hangupStart.traps
    pendingSigs := countSignal (fun _ => 0) sighup }

theorem runPendingTraps_steps_hangup : GetsTo (hangupShell.signalState [])
    ((Exec.run (runPendingTraps 2 fun _ => pure 0) hangupShell).state.signalState []) := by
  have acts : ActsAsShellCode fun _ => (pure 0 : Exec Machine Int) := by
    intro _ shell after _ calls ended _
    cases ended
    exact .refl _
  have ended : (Exec.run (runPendingTraps 2 fun _ => pure 0) hangupShell).value? = some true := by decide +kernel
  exact @runPendingTraps_steps _ _ _ _ _ _ @acts 2 [] rfl (Outcome.eq_done_of_value? ended)

end Mrsh
