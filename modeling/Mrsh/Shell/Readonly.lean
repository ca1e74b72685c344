import Mrsh.Shell.Interpreter

namespace Mrsh

open Mrsh.Data

/-! # Readonly variables

Every program of the interpreter heeds READONLY, so that a run in which none of the unchecked writers
comes to a readonly variable leaves all of them as they are.
-/

section

variable {World : Type} [System World]

/-! ## The interpreter heeds READONLY -/

theorem matchPatterns_heeds {self : Tasks World} {ctx : Context} (words : ∀ word, HeedsReadonly (runWord self ctx word))
    (addr : Address) (wordStr : Str) (before patterns : List Word) :
    HeedsReadonly (matchPatterns self ctx addr wordStr before patterns) := by
  induction patterns generalizing before with
  | nil => exact .pure _
  | cons pattern patterns ih =>
      refine .bind (Heeding.heeds : HeedsReadonly (leaf _)) fun word => .bind (words word) fun expanded => ?_
      refine .bind (.control _) fun _ => .ite (.pure _) ?_
      exact .bind (Heeding.heeds : HeedsReadonly (leaf _)) fun _ => .ite (.pure _) (ih _)

omit [System World] in
theorem popFrame_heeds : HeedsReadonly (popFrame : Exec World Unit) :=
  .bind Heeding.heeds fun _ => .bind (.control _) fun _ => Heeding.heeds

theorem Interprets.heeds {α : Type} {prog : Exec World α} (interprets : Interprets prog) : HeedsReadonly prog := by
  induction interprets with
  | pure value => exact .pure value
  | stop reason => exact .stop reason
  | leaf prog => exact Heeding.heeds
  | bind _ _ first next => exact .bind first next
  | control plain => exact .control _
  | frame args _ body => exact .bind (.control _) fun _ => .bind body fun _ => .bind popFrame_heeds fun _ => .pure _
  | patterns addr own wordStr _ words =>
      exact .bind (Heeding.heeds : HeedsReadonly (Mrsh.leaf _)) fun _ => matchPatterns_heeds words _ _ _ _

theorem runCommand_heeds (fuel : Nat) (ctx : Context) (cmd : Command) :
    HeedsReadonly (runCommand (tasks fuel) ctx cmd : Exec World Int) :=
  (runCommand_constructs (tasksConstruct fuel) ctx cmd).interprets.heeds

/-! ## Every command -/

omit [System World] in
theorem HeedsReadonly.keeps {α : Type} {prog : Exec World α} (heeds : HeedsReadonly prog) {before : Shell World}
    (given : GivenUnlocked prog before) :
    (∀ step ∈ prog.steps before, KeepsReadonly before step.2) ∧ KeepsReadonly before (prog.run before).state :=
  Prog.run_keeps handle_keepsReadonly prog before (heeds before given)

/-- A command keeps the readonly variables, in every state that its run reaches, provided that
none of the unchecked writers that the run comes to is given one of them. -/
theorem runCommand_keepsReadonly (fuel : Nat) (ctx : Context) (cmd : Command) (before : Shell World)
    (given : GivenUnlocked (runCommand (tasks fuel) ctx cmd) before) :
    (∀ step ∈ (runCommand (tasks fuel) ctx cmd).steps before, KeepsReadonly before step.2) ∧
      KeepsReadonly before ((runCommand (tasks fuel) ctx cmd).run before).state :=
  (runCommand_heeds fuel ctx cmd).keeps given

end

/-- A shell whose variable `x` is readonly. -/
def readonlyShell : Shell Machine :=
  { mrshStateCreate [] Machine.isolated with vars := Hashtable.empty.set ['x'] ⟨['1'], .readonlyOnly⟩ }

def assignmentTo (name value : Str) : Command :=
  .simpleCommand
    { name := none, arguments := [], ioRedirects := []
      assignments := [{ name, value := mrshWordStringCreate value false, nameRange := .invalid
                        equalPos := .invalid }] }

/-- `for name in 2; do y=x; done` -/
def forEach (name : Str) : Command :=
  .forClause
    { name, hasIn := true, wordList := [mrshWordStringCreate ['2'] false]
      body := [{ andOrList := .pipeline { commands := [assignmentTo ['y'] ['x']], bang := false, bangPos := .invalid }
                 ampersand := false, separatorPos := .invalid }]
      forRange := .invalid, nameRange := .invalid, inRange := .invalid, doRange := .invalid
      doneRange := .invalid }

/-- `for z in 2; do y=x; done` keeps a readonly `x`. -/
theorem runCommand_keepsReadonly_other :
    KeepsReadonly readonlyShell ((runCommand (tasks 9) .initial (forEach ['z'])).run readonlyShell).state :=
  (runCommand_keepsReadonly 9 .initial (forEach ['z']) readonlyShell
    (((runCommand_heeds 9 .initial (forEach ['z'])).givenUnlocked_iff readonlyShell).mpr (by decide +kernel))).2

/-- A `for` clause gives a readonly variable another value and takes READONLY away. -/
theorem forClause_overwrites_readonly :
    readonlyShell.vars.get ['x'] = some ⟨['1'], .readonlyOnly⟩ ∧
      ((runCommand (tasks 9) .initial (forEach ['x'])).run readonlyShell).state.vars.get ['x'] =
        some ⟨['2'], .none⟩ := by
  decide +kernel

end Mrsh
