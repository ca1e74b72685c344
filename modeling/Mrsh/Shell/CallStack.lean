import Mrsh.Data.Conditions
import Mrsh.Shell.Interpreter
import Mrsh.Shell.Returning

namespace Mrsh

open Mrsh.Data

/-! # The stack of call frames

However a command ends, each frame that it pushed was popped again: a frame is pushed
and popped around the body of a function, whose status, negative or not, is only handed
on after the pop.
-/

section

variable {World α β : Type}

/-- The step leaves the frames of the callers alone, so that it pops none of them. -/
structure StaysAbove (callers : List CallFrame) (step : (LeafAction World ⊕ ControlAction) × Shell World) : Prop where
  above : callers <:+ step.2.callers
  popped : step.1 = .inr .pop → step.2.callers ≠ callers

/-- The program pops the frames that it pushed and no others. -/
structure Balanced (prog : Exec World α) : Prop where
  steps : ∀ state, ∀ step ∈ prog.steps state, StaysAbove state.callers step
  done : ∀ {state after : Shell World} {value : α}, Exec.run prog state = .done value after →
    after.callers = state.callers

/-! ## Steps that do not change the control flow -/

theorem leaf_steps {prog : Leaf World α} {state : Shell World}
    {step : (LeafAction World ⊕ ControlAction) × Shell World} (member : step ∈ (leaf prog).steps state) :
    (∃ action, step.1 = .inl action) ∧ SameControl state step.2 := by
  refine ⟨Prog.mem_steps_inl member, ?_⟩
  have handled : ∀ (action : LeafAction World ⊕ ControlAction) (before : Shell World), (∃ first, action = .inl first) →
      SameControl before (((@handleLeaf World).sum handleControl) action before).2 := by
    rintro _ before ⟨action, rfl⟩
    exact leaf_sameControl (.act action .pure) before
  have kept := Prog.run_keeps handled (leaf prog) state fun _ reached => Prog.mem_steps_inl reached
  exact kept.1 step member

namespace Balanced

theorem pure (value : α) : Balanced (pure value : Exec World α) where
  steps _ _ member := nomatch member
  done ended := by
    cases ended
    rfl

theorem stop (reason : Ending) : Balanced (Prog.stop reason : Exec World α) where
  steps _ _ member := nomatch member
  done ended := nomatch ended

theorem leaf (prog : Leaf World α) : Balanced (leaf prog) where
  steps state step member := by
    obtain ⟨⟨action, leafAction⟩, same⟩ := leaf_steps member
    refine ⟨?_, fun popped => ?_⟩
    · have kept : step.2.callers = state.callers := congrArg Control.callers same
      exact kept ▸ List.suffix_refl _
    · rw [leafAction] at popped
      cases popped
  done ended := by
    rw [Exec.run_leaf] at ended
    exact congrArg Control.callers ((leaf_sameControl prog).done ended)

theorem control {action : ControlAction} (plain : action.isPlain = true) :
    Balanced (control action : Exec World Unit) where
  steps state step member := by
    obtain rfl := List.mem_singleton.mp member
    refine ⟨List.suffix_refl _, fun popped => ?_⟩
    cases popped
    cases plain
  done ended := by
    cases ended
    cases action with
    | push args => cases plain
    | pop => cases plain
    | _ => rfl

theorem bind {first : Exec World α} {next : α → Exec World β} (balanced : Balanced first)
    (nextBalanced : ∀ value, Balanced (next value)) : Balanced (first >>= next) where
  steps state step member := by
    rcases Prog.mem_steps_bind member with member | ⟨value, after, ended, member⟩
    · exact balanced.steps state step member
    · rw [← balanced.done ended]
      exact (nextBalanced value).steps after step member
  done ended := by
    obtain ⟨value, between, first, second⟩ := Exec.run_bind_done.mp ended
    rw [(nextBalanced value).done second, balanced.done first]

theorem ite {condition : Prop} [Decidable condition] {yes no : Exec World α} (ifTrue : Balanced yes)
    (ifFalse : Balanced no) : Balanced (if condition then yes else no) := by
  split
  · exact ifTrue
  · exact ifFalse

end Balanced

theorem StaysAbove.lower {frame : CallFrame} {callers : List CallFrame}
    {step : (LeafAction World ⊕ ControlAction) × Shell World} (stays : StaysAbove (frame :: callers) step) :
    StaysAbove callers step where
  above := (List.suffix_cons frame callers).trans stays.above
  popped _ same := by
    have longer := stays.above.length_le
    rw [same, List.length_cons] at longer
    omega

theorem popFrame_steps {state : Shell World} {frame : CallFrame} {callers : List CallFrame}
    (top : state.callers = frame :: callers) :
    (∀ step ∈ (popFrame : Exec World Unit).steps state, StaysAbove callers step) ∧
      ∀ after, Exec.run popFrame state = .done () after → after.callers = callers := by
  have popped : (handleControl .pop state).2.callers = callers := by
    simp only [handleControl, top]
  have asserts : ∀ condition : Bool, Balanced (leaf (assertThat condition) : Exec World Unit) := fun _ => .leaf _
  constructor
  · intro step member
    rcases Prog.mem_steps_bind member with first | ⟨destroyable, between, read, member⟩
    · have stays := (Balanced.leaf _).steps state step first
      rw [top] at stays
      exact stays.lower
    · cases read
      rcases Prog.mem_steps_bind member with pop | ⟨_, after, handled, member⟩
      · obtain rfl := List.mem_singleton.mp pop
        refine ⟨?_, fun _ => ?_⟩
        · change callers <:+ state.callers
          rw [top]
          exact List.suffix_cons frame callers
        · change state.callers ≠ callers
          rw [top]
          exact List.cons_ne_self frame callers
      · cases handled
        have stays := (asserts _).steps (handleControl .pop state).2 step member
        rw [popped] at stays
        exact stays
  · intro after ended
    obtain ⟨destroyable, between, read, rest⟩ := Exec.run_bind_done.mp ended
    cases read
    obtain ⟨_, last, handled, asserted⟩ := Exec.run_bind_done.mp rest
    cases handled
    have kept : after.callers = (handleControl .pop state).2.callers := (asserts _).done asserted
    rw [kept, popped]

theorem setPatterns_balanced (addr : Address) (before : List Word) (pattern expanded : Word) (after : List Word) :
    Balanced (control (.setPatterns addr before pattern expanded after) : Exec World Unit) where
  steps state step member := by
    obtain rfl := List.mem_singleton.mp member
    exact ⟨List.suffix_refl _, nofun⟩
  done ended := by
    cases ended
    rfl

theorem Balanced.frame (args : List Str) {body : Exec World Int} (balanced : Balanced body) :
    Balanced (withFrame args body) where
  steps state step member := by
    rcases Prog.mem_steps_bind member with push | ⟨_, pushed, handled, member⟩
    · obtain rfl := List.mem_singleton.mp push
      exact ⟨List.suffix_refl _, nofun⟩
    · cases handled
      rcases Prog.mem_steps_bind member with inBody | ⟨ret, after, ended, member⟩
      · exact (balanced.steps _ step inBody).lower
      · rcases Prog.mem_steps_bind member with pop | ⟨_, _, _, member⟩
        · exact (popFrame_steps (balanced.done ended)).1 step pop
        · cases member
  done ended := by
    obtain ⟨_, pushed, handled, rest⟩ := Exec.run_bind_done.mp ended
    cases handled
    obtain ⟨ret, between, first, rest⟩ := Exec.run_bind_done.mp rest
    obtain ⟨_, last, popped, returned⟩ := Exec.run_bind_done.mp rest
    cases returned
    exact (popFrame_steps (balanced.done first)).2 _ popped

end

section

variable {World : Type} [System World]

theorem matchPatterns_balanced {self : Tasks World} {ctx : Context} (words : ∀ word, Balanced (runWord self ctx word))
    (addr : Address) (wordStr : Str) (before patterns : List Word) :
    Balanced (matchPatterns self ctx addr wordStr before patterns) := by
  induction patterns generalizing before with
  | nil => exact .pure _
  | cons pattern patterns ih =>
      refine (Balanced.leaf _).bind fun word => (words word).bind fun expanded => ?_
      refine (setPatterns_balanced addr before pattern expanded.2 patterns).bind fun _ => .ite (.pure _) ?_
      exact (Balanced.leaf _).bind fun _ => .ite (.pure _) (ih _)

theorem Interprets.balanced {α : Type} {prog : Exec World α} (interprets : Interprets prog) : Balanced prog := by
  induction interprets with
  | pure value => exact .pure value
  | stop reason => exact .stop reason
  | leaf prog => exact .leaf prog
  | bind _ _ firstBalanced nextBalanced => exact firstBalanced.bind nextBalanced
  | control plain => exact .control plain
  | frame args _ balanced => exact balanced.frame args
  | patterns addr own wordStr _ balanced =>
      exact (Balanced.leaf _).bind fun _ => matchPatterns_balanced balanced _ _ _ _

/-! ## Every command -/

/-- The frames below the current one are what they were before the command, and no pop
finds the stack without a previous frame. -/
theorem runCommand_callStack (fuel : Nat) (ctx : Context) (cmd : Command) (state : Shell World) :
    (∀ step ∈ (runCommand (tasks fuel) ctx cmd).steps state, step.1 = .inr .pop → step.2.callers ≠ []) ∧
      ∀ status after, Exec.run (runCommand (tasks fuel) ctx cmd) state = .done status after →
        after.callers = state.callers := by
  have balanced : Balanced (runCommand (tasks fuel) ctx cmd : Exec World Int) :=
    (runCommand_constructs (tasksConstruct fuel) ctx cmd).interprets.balanced
  refine ⟨fun step member pops none => ?_, fun status after ended => balanced.done ended⟩
  obtain ⟨above, popped⟩ := balanced.steps state step member
  rw [none, List.suffix_nil] at above
  rw [above] at popped
  exact popped pops none

end

/-- The kind of an interruption is left in the current frame. -/
theorem runCommand_leavesBranch :
    ∃ status after, Exec.run (runCommand (tasks 3) .initial (.simpleCommand (literalCommand "continue".toList [])))
        (mrshStateCreate [] Machine.isolated) = .done status after ∧
      after.branchControl ≠ (mrshStateCreate [] Machine.isolated).branchControl := by
  have ended : (Exec.run (runCommand (tasks 3) .initial (.simpleCommand (literalCommand "continue".toList [])))
      (mrshStateCreate [] Machine.isolated)).value? = some taskStatusInterrupted := by decide +kernel
  refine ⟨_, _, Outcome.eq_done_of_value? ended, ?_⟩
  decide +kernel

end Mrsh
