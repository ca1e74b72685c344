import Mrsh.Shell.Breaking

namespace Mrsh

open Mrsh.Data

/-! # Returning from a function

`return n` interrupts the function like `break` and `continue` interrupt a loop. Nothing
at the boundary of the function turns the interruption back into a status.
-/

section

variable {World : Type}

def SameControl (before after : Shell World) : Prop := after.toControl = before.toControl

instance : Std.Refl (SameControl : Shell World → Shell World → Prop) := ⟨fun _ => rfl⟩

instance : IsTrans (Shell World) SameControl := ⟨fun _ _ _ first second => second.trans first⟩

theorem leaf_sameControl {α : Type} (prog : Leaf World α) : Run.Respects SameControl (Leaf.run prog) := by
  apply Prog.run_respects
  intro action before
  cases action with
  | assign key var =>
      simp only [handleLeaf]
      split <;> rfl
  | _ => rfl

variable [System World]

/-! ## The interruption inside the function -/

/-- The interruption passes through the frames, which run nothing else of the function. -/
inductive PassedOn : List Frame → Shell World → Shell World → Prop where
  | nil {state} : PassedOn [] state state
  | pass {frame frames state middle after} (noLoop : loopLevels [frame] = [])
      (noOr : ∀ fuel ctx right, frame ≠ .orLeft fuel ctx right)
      (passes : Exec.run (frame.resume taskStatusInterrupted) state = .done taskStatusInterrupted middle)
      (rest : PassedOn frames middle after) : PassedOn (frame :: frames) state after
  | leave {loop frames state after}
      (leaves : Exec.run (loop.round taskStatusInterrupted) state = .done (.leave taskStatusInterrupted) state)
      (rest : PassedOn frames { state with nloops := state.nloops - 1 } after) :
      PassedOn (.loop loop :: frames) state after

theorem PassedOn.run {frames : List Frame} {state after : Shell World} (passed : PassedOn frames state after) :
    Exec.run (resumeAll frames taskStatusInterrupted) state = .done taskStatusInterrupted after := by
  induction passed with
  | nil => rfl
  | pass noLoop noOr passes rest ih =>
      rw [resumeAll, Exec.run_bind, passes]
      exact ih
  | leave leaves rest ih =>
      rw [resumeAll, Exec.run_bind, resume_loop, leaves]
      exact ih

/-- A frame of the function that no operator `||` is part of, and whose loop, if it is one, was
entered while the counter of the frame was not negative. -/
def Frame.Returns : Frame → Prop
  | orLeft _ _ _ => False
  | loop frame => 1 ≤ frame.level
  | _ => True

/-- A failure, which is an interruption only while no loop can stop it. -/
def FailsWith (ret : Int) (state : Shell World) : Prop :=
  ret < 0 ∧ (ret = taskStatusInterrupted → state.nloops ≤ 0)

theorem round_failsWith {loop : LoopFrame} (level : 1 ≤ loop.level) {ret : Int} {state after : Shell World}
    {round : Round} (fails : FailsWith ret state) (ended : Exec.run (loop.round ret) state = .done round after) :
    (round = .leave taskStatusInterrupted ∧ after = state ∧ state.nloops ≤ 0) ∨
      (round = .fail ret ∧ after = state ∧ ret ≠ taskStatusInterrupted) := by
  by_cases interrupted : ret = taskStatusInterrupted
  · have counter := fails.2 interrupted
    rw [interrupted, (round_leaves_iff loop state).mpr (by omega)] at ended
    obtain ⟨rfl, rfl⟩ := Outcome.done.inj ended
    exact .inl ⟨rfl, rfl, counter⟩
  · have failed : Exec.run (loop.round ret) state = .done (.fail ret) state := by
      have notInterrupted : ¬(ret == taskStatusInterrupted) = true := by simpa using interrupted
      cases loop <;> simp [LoopFrame.round, endOfBody, notInterrupted, fails.1]
    rw [failed] at ended
    obtain ⟨rfl, rfl⟩ := Outcome.done.inj ended
    exact .inr ⟨rfl, rfl, interrupted⟩

theorem resume_failsWith {frame : Frame} (inFunction : frame.Returns) {ret value : Int} {state after : Shell World}
    (fails : FailsWith ret state) (ended : Exec.run (frame.resume ret) state = .done value after) :
    FailsWith value after := by
  obtain ⟨negative, counter⟩ := fails
  cases frame with
  | orLeft fuel ctx right => exact inFunction.elim
  | lists fuel ctx rest | ifCondition fuel ctx ic =>
      rw [Frame.resume, Exec.run_ite, if_pos negative] at ended
      obtain ⟨rfl, rfl⟩ := Outcome.done.inj ended
      exact ⟨negative, counter⟩
  | andLeft fuel ctx right =>
      have failed : (ret != 0) = true := by
        have nonzero : ret ≠ 0 := by omega
        simpa using nonzero
      rw [Frame.resume, if_pos failed] at ended
      obtain ⟨rfl, rfl⟩ := Outcome.done.inj ended
      exact ⟨negative, counter⟩
  | pipeline bang =>
      have kept : negate bang ret = ret := by
        have below : ¬(0 ≤ ret) := by omega
        simp [negate, below]
      rw [Frame.resume, kept] at ended
      obtain ⟨rfl, rfl⟩ := Outcome.done.inj ended
      exact ⟨negative, counter⟩
  | redirected fds =>
      obtain ⟨restored, middle, ran, ended⟩ := Exec.run_bind_done.mp ended
      rw [Exec.run_leaf] at ran
      have same : middle.toControl = state.toControl := (leaf_sameControl _).done ran
      cases restored with
      | true =>
          obtain ⟨rfl, rfl⟩ := Outcome.done.inj ended
          exact ⟨negative, fun interrupted => by rw [same]; exact counter interrupted⟩
      | false =>
          obtain ⟨rfl, rfl⟩ := Outcome.done.inj ended
          exact ⟨by decide, fun interrupted => absurd interrupted (by decide)⟩
  | loop loop =>
      rw [resume_loop] at ended
      obtain ⟨round, middle, ran, left⟩ := Outcome.andThen_eq_done.mp ended
      rcases round_failsWith inFunction ⟨negative, counter⟩ ran with ⟨rfl, rfl, below⟩ | ⟨rfl, rfl, other⟩
      · obtain ⟨rfl, rfl⟩ := Outcome.done.inj (show Exec.run (leaveLoop taskStatusInterrupted) middle = _ from left)
        exact ⟨by decide, fun _ => show middle.nloops - 1 ≤ 0 by omega⟩
      · obtain ⟨rfl, rfl⟩ := Outcome.done.inj (show Exec.run (pure ret) middle = _ from left)
        exact ⟨negative, fun interrupted => absurd interrupted other⟩

theorem resumeAll_failsWith {frames : List Frame} (inFunction : ∀ frame ∈ frames, frame.Returns) {ret value : Int}
    {state after : Shell World} (fails : FailsWith ret state)
    (ended : Exec.run (resumeAll frames ret) state = .done value after) : FailsWith value after := by
  induction frames generalizing ret state with
  | nil =>
      obtain ⟨rfl, rfl⟩ := Outcome.done.inj ended
      exact fails
  | cons frame frames ih =>
      rw [List.forall_mem_cons] at inFunction
      obtain ⟨status, middle, ran, ended⟩ := Exec.run_bind_done.mp ended
      exact ih inFunction.2 (resume_failsWith inFunction.1 fails ran) ended

/-! ## The call -/

theorem returnBuiltin_run {n : Nat} (bounded : n ≤ 255) (fuel : Nat) (state : Shell World) :
    Exec.run (mrshRunBuiltin (tasks fuel) ["return".toList, decimal n]) state =
      .done taskStatusInterrupted
        { state with nloops := 0, branchControl := .return, lastStatus := n } := by
  have called : mrshRunBuiltin (tasks fuel : Tasks World) ["return".toList, decimal n] =
      builtinReturn ["return".toList, decimal n] := rfl
  have scanned := strtol_decimal n 10 (.inr rfl) (by rw [longMax]; omega)
  have number : toInt32 (n : Int) = n := toInt32_eq (by omega) (by omega)
  have inRange : (decide ((n : Int) < 0) || decide (255 < (n : Int))) = false := by
    simp only [Bool.or_eq_false_iff, decide_eq_false_iff_not]
    omega
  have accepted :
    (!([] : Str).isEmpty || "return".toList.isEmpty || decide ((n : Int) < 0) || decide (255 < (n : Int))) =
      false := inRange
  rw [called, builtinReturn]
  simp only [List.headD_cons, scanned, number, accepted, Bool.false_eq_true, if_false]
  rfl

/-- The call of the function ends with the status `n`, and `return n` has ended all of its body. -/
def EndsFunction (self : Tasks World) (ctx : Context) (body : Command) (args : List Str) (n : Nat)
    (caller : Shell World)
    (frames : List Frame) (returned : Shell World) : Prop :=
  (∃ last, PassedOn frames returned last) ∧
    ∃ after, Exec.run (runFunction self ctx body args) caller = .done n after

/-- The frame of the function and the copy of its body that is run. -/
def entersFunction (args : List Str) (body : Command) : Exec World Command := do
  pushFrame args
  let generation ← leaf newSerial
  leaf (orCrash (mrshCommandCopy generation body))

omit [System World] in
theorem runFunction_run {self : Tasks World} {ctx : Context} {body copy : Command} {args : List Str}
    {caller called : Shell World} (enters : Exec.run (entersFunction args body) caller = .done copy called) :
    Exec.run (runFunction self ctx body args) caller =
      (Exec.run (self.runCommand ctx copy) called).andThen fun ret last =>
        Exec.run (do popFrame; pure ret) last := by
  obtain ⟨_, framed, pushed, enters⟩ := Exec.run_bind_done.mp enters
  obtain ⟨generation, numbered, serial, copied⟩ := Exec.run_bind_done.mp enters
  rw [runFunction, Exec.run_bind_of_done pushed, Exec.run_bind_of_done serial, Exec.run_bind_of_done copied,
    Exec.run_bind]

omit [System World] in
theorem runFunction_status {self : Tasks World} {ctx : Context} {body copy : Command} {args : List Str} {value : Int}
    {caller called after : Shell World} (enters : Exec.run (entersFunction args body) caller = .done copy called)
    (ended : Exec.run (runFunction self ctx body args) caller = .done value after) :
    ∃ last, Exec.run (self.runCommand ctx copy) called = .done value last := by
  rw [runFunction_run enters] at ended
  obtain ⟨ret, last, ran, ended⟩ := Outcome.andThen_eq_done.mp ended
  obtain ⟨_, popped, _, ended⟩ := Exec.run_bind_done.mp ended
  obtain ⟨rfl, rfl⟩ := Outcome.done.inj ended
  exact ⟨last, ran⟩

/-- A function whose body executes `return n` never ends with the status `n`. In loops, lists, `if`
and `case` commands the call is interrupted itself, or it fails. -/
theorem runFunction_never_returns {fuel inner n : Nat} {ctx : Context} {body copy : Command} {args : List Str}
    {caller called state : Shell World} {frames : List Frame} (bounded : n ≤ 255)
    (enters : Exec.run (entersFunction args body) caller = .done copy called)
    (reached : Reaches ((tasks fuel).runCommand ctx copy) called frames
      (mrshRunBuiltin (tasks inner) ["return".toList, decimal n]) state) :
    ¬ EndsFunction (tasks fuel) ctx body args n caller frames
        { state with nloops := 0, branchControl := .return, lastStatus := n } ∧
      ((∀ frame ∈ frames, frame.Returns) → ∀ value after,
        Exec.run (runFunction (tasks fuel) ctx body args) caller = .done value after → value < 0) := by
  have body := reached.run
  rw [returnBuiltin_run bounded, Outcome.andThen_done] at body
  constructor
  · rintro ⟨⟨last, passed⟩, after, ended⟩
    obtain ⟨_, ran⟩ := runFunction_status enters ended
    rw [body, passed.run] at ran
    have status := (Outcome.done.inj ran).1
    simp only [taskStatusInterrupted] at status
    omega
  · intro inFunction value after ended
    obtain ⟨_, ran⟩ := runFunction_status enters ended
    rw [body] at ran
    exact (resumeAll_failsWith inFunction ⟨by decide, fun _ => Int.le_refl 0⟩ ran).1

end

def returnCommand (n : Nat) : Command := .simpleCommand (literalCommand "return".toList [decimal n])

/-- The shell in a function with this command, whose words have been expanded. -/
def atReturn (fuel n : Nat) (called : Shell Machine) : Shell Machine :=
  (Exec.run (expandCommand (tasks fuel) inJob (literalCommand "return".toList [decimal n])
      (mrshWordStringCreate "return".toList false))
    { called with
      nextSerial := called.nextSerial + 1
      history := called.history ++ [⟨.simpleCommand, 0 < called.runningActions⟩] }).state

def calledShell (n : Nat) : Shell Machine :=
  (Exec.run (entersFunction [['f']] (returnCommand n)) newShell).state

/-- `f() { return 1; }` does not return 1. -/
theorem runFunction_never_returns_one :
    ∃ frames returned, ¬ EndsFunction (tasks 4) inJob (returnCommand 1) [['f']] 1 newShell frames returned := by
  have enters :
    Exec.run (entersFunction [['f']] (returnCommand 1)) newShell = .done (returnCommand 1) (calledShell 1) := rfl
  have reached := @reaches_builtin _ _ _ _ _ _ 3 inJob "return".toList [decimal 1] _ .start rfl _
    (atReturn 3 1 (calledShell 1)) rfl rfl (by decide +kernel) (by decide +kernel) (by decide +kernel)
    (by decide +kernel)
  exact ⟨_, _, (@runFunction_never_returns _ _ 4 2 1 inJob _ _ _ _ _ _ _ (by decide) enters reached).1⟩

/-- The call of `f() { return 1; }` is interrupted. -/
theorem return_one_interrupts :
    (Exec.run (runFunction (tasks 4) inJob (returnCommand 1) [['f']]) newShell).value? =
      some taskStatusInterrupted := by
  decide +kernel

end Mrsh
