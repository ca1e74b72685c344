import Mrsh.Shell.CallStack
import Mrsh.Shell.FailedRedirections

namespace Mrsh

open Mrsh.Data

/-! # The level of the loops after a command

Each loop function raises the level of the loops in the call frame and lowers it again when
the loop ends. An error in the words of a `for` clause, in a condition or in a body is
returned from the middle of the function, which leaves the level raised.
-/

section

variable {World α β : Type}

/-! ## Abandoned loops -/

/-- An action that sets the level of the loops in no frame, and changes no frame for another. -/
def ControlAction.keepsLevel : ControlAction → Bool
  | .push _ => false
  | .pop => false
  | .setLoops _ => false
  | _ => true

/-- The run from the state abandons so many loops of its call frame: their function returns an
error while their level is raised. In a loop, the level of one more loop is to be lowered. -/
inductive Abandons : (inLoop : Bool) → {α : Type} → Exec World α → Shell World → Nat → Prop where
  | pure {α : Type} (value : α) (state : Shell World) : Abandons false (pure value) state 0
  | leaf {α : Type} (prog : Leaf World α) (state : Shell World) : Abandons false (leaf prog) state 0
  | control {action : ControlAction} (keeps : action.keepsLevel = true) (state : Shell World) :
      Abandons false (control action) state 0
  | bind {α β : Type} {inLoop : Bool} {first : Exec World α} {next : α → Exec World β} {state between : Shell World}
      {value : α} {earlier later : Nat} (firstAbandons : Abandons false first state earlier)
      (ended : Exec.run first state = .done value between) (nextAbandons : Abandons inLoop (next value) between later) :
      Abandons inLoop (first >>= next) state (earlier + later)
  /-- The loops of a function belong to its own frame. -/
  | frame (args : List Str) {body : Exec World Int} (balanced : Balanced body) (state : Shell World) :
      Abandons false (withFrame args body) state 0
  | enter {next : Int → Exec World Int} {state : Shell World} {count : Nat}
      (nextAbandons : Abandons true (next (state.nloops + 1)) { state with nloops := state.nloops + 1 } count) :
      Abandons false (enterLoop >>= next) state count
  | leave (ret : Int) (state : Shell World) : Abandons true (leaveLoop ret) state 0
  | fail {ret : Int} (failed : ret < 0) (state : Shell World) : Abandons true (pure ret) state 1

/-- The run does not say in the given frame what kind of branch is taken, as `break`, `continue`,
`return` and `exit` do. -/
def Unbranched (callers : List CallFrame) (prog : Exec World α) (state : Shell World) : Prop :=
  ∀ step ∈ prog.steps state, ∀ branch, step.1 = .inr (.setBranch branch) → step.2.callers ≠ callers

/-! ## What abandoned loops do to the level -/

theorem withFrame_nloops {args : List Str} {body : Exec World Int} (balanced : Balanced body)
    {state after : Shell World}
    {ret : Int} (ended : Exec.run (withFrame args body) state = .done ret after) : after.nloops = state.nloops := by
  obtain ⟨_, pushed, handled, rest⟩ := Exec.run_bind_done.mp ended
  cases handled
  obtain ⟨status, between, ran, rest⟩ := Exec.run_bind_done.mp rest
  obtain ⟨_, last, popped, returned⟩ := Exec.run_bind_done.mp rest
  cases returned
  obtain ⟨destroyable, _, read, popped⟩ := Exec.run_bind_done.mp popped
  cases read
  obtain ⟨_, below, handled, asserted⟩ := Exec.run_bind_done.mp popped
  cases handled
  have same : after.nloops = (handleControl .pop between).2.nloops := by
    rw [Exec.run_leaf] at asserted
    exact congrArg Control.nloops ((leaf_sameControl _).done asserted)
  have pushed : between.callers = ⟨state.argv, state.argc, state.branchControl, state.nloops⟩ :: state.callers :=
    balanced.done ran
  rw [same]
  simp only [handleControl, pushed]

theorem ControlAction.keepsLevel_nloops {action : ControlAction} (keeps : action.keepsLevel = true)
    (state : Shell World) : (handleControl action state).2.nloops = state.nloops := by
  cases action with
  | setLoops nloops => cases keeps
  | push args => cases keeps
  | pop => cases keeps
  | _ => rfl

/-- The level that a program has to give up before it ends. -/
def levelsOf : Bool → Int
  | true => 1
  | false => 0

theorem Abandons.nloops_eq {inLoop : Bool} {prog : Exec World α} {state after : Shell World} {count : Nat} {value : α}
    (abandons : Abandons inLoop prog state count) (ended : Exec.run prog state = .done value after) :
    after.nloops = state.nloops - levelsOf inLoop + count := by
  induction abandons generalizing after with
  | pure value state =>
      cases ended
      simp [levelsOf]
  | leaf prog state =>
      rw [Exec.run_leaf] at ended
      have same : after.nloops = state.nloops := congrArg Control.nloops ((leaf_sameControl prog).done ended)
      simp [same, levelsOf]
  | @control action keeps state =>
      cases ended
      have kept : ((handleLeaf.sum handleControl) (.inr action) state).2.nloops = state.nloops :=
        ControlAction.keepsLevel_nloops keeps state
      simp [kept, levelsOf]
  | bind _ first _ firstLevel nextLevel =>
      obtain ⟨middle, between, same, rest⟩ := Exec.run_bind_done.mp ended
      rw [first] at same
      cases same
      have earlier := firstLevel first
      have later := nextLevel rest
      simp only [levelsOf] at earlier
      omega
  | frame args balanced state =>
      rw [withFrame_nloops balanced ended]
      simp [levelsOf]
  | enter _ level =>
      obtain ⟨loopNum, entered, same, rest⟩ := Exec.run_bind_done.mp ended
      cases same
      have inside := level rest
      simp only [levelsOf] at inside ⊢
      omega
  | leave ret state =>
      cases ended
      change state.nloops - 1 = _
      simp [levelsOf]
  | fail failed state =>
      cases ended
      simp [levelsOf]

/-! ## Every run is accounted for -/

/-- What a run that ends abandons is known, unless it branches in its frame. -/
def Counts (inLoop : Bool) (prog : Exec World α) : Prop :=
  ∀ state value after, Exec.run prog state = .done value after → Unbranched state.callers prog state →
    after.callers = state.callers ∧ ∃ count, Abandons inLoop prog state count

namespace Counts

theorem pure (value : α) : Counts false (pure value : Exec World α) := by
  intro state _ after ended _
  cases ended
  exact ⟨rfl, 0, .pure value state⟩

theorem stop (reason : Ending) : Counts false (Prog.stop reason : Exec World α) :=
  fun _ _ _ ended => nomatch ended

theorem leaf (prog : Leaf World α) : Counts false (leaf prog) :=
  fun state _ _ ended _ => ⟨(Balanced.leaf prog).done ended, 0, .leaf prog state⟩

theorem control {action : ControlAction} (keeps : action.keepsLevel = true) :
    Counts false (control action : Exec World Unit) := by
  intro state _ after ended _
  refine ⟨?_, 0, .control keeps state⟩
  cases ended
  cases action with
  | push args => cases keeps
  | pop => cases keeps
  | _ => rfl

/-- What follows may rely on the value being a result of the first part. -/
theorem bindResult {inLoop : Bool} {first : Exec World α} {next : α → Exec World β} (counts : Counts false first)
    (nextCounts : ∀ value, (∃ state after, Exec.run first state = .done value after) → Counts inLoop (next value)) :
    Counts inLoop (first >>= next) := by
  intro state value after ended unbranched
  obtain ⟨middle, between, ran, rest⟩ := Exec.run_bind_done.mp ended
  obtain ⟨same, earlier, firstAbandons⟩ :=
    counts state middle between ran fun step reached => unbranched step (Prog.steps_bind_first reached)
  have nextUnbranched : Unbranched between.callers (next middle) between := by
    rw [same]
    exact fun step reached => unbranched step (Prog.steps_bind_next ran reached)
  obtain ⟨kept, later, nextAbandons⟩ := nextCounts middle ⟨state, between, ran⟩ between value after rest nextUnbranched
  exact ⟨kept.trans same, earlier + later, .bind firstAbandons ran nextAbandons⟩

theorem bind {inLoop : Bool} {first : Exec World α} {next : α → Exec World β} (counts : Counts false first)
    (nextCounts : ∀ value, Counts inLoop (next value)) : Counts inLoop (first >>= next) :=
  counts.bindResult fun value _ => nextCounts value

theorem ite {inLoop : Bool} {condition : Prop} [Decidable condition] {yes no : Exec World α}
    (ifTrue : condition → Counts inLoop yes) (ifFalse : ¬condition → Counts inLoop no) :
    Counts inLoop (if condition then yes else no) := by
  split
  · exact ifTrue ‹_›
  · exact ifFalse ‹_›

theorem leafBind {inLoop : Bool} {prog : Leaf World α} {next : α → Exec World β}
    (nextCounts : ∀ value, Counts inLoop (next value)) : Counts inLoop (Mrsh.leaf prog >>= next) :=
  (leaf prog).bind nextCounts

theorem frame (args : List Str) {body : Exec World Int} (balanced : Balanced body) :
    Counts false (withFrame args body) :=
  fun state _ _ ended _ => ⟨(balanced.frame args).done ended, 0, .frame args balanced state⟩

theorem fail {ret : Int} (failed : ret < 0) : Counts true (Pure.pure ret : Exec World Int) := by
  intro state _ after ended _
  cases ended
  exact ⟨rfl, 1, .fail failed state⟩

theorem leaveLoop (ret : Int) : Counts true (leaveLoop ret : Exec World Int) := by
  intro state _ after ended _
  cases ended
  exact ⟨rfl, 0, .leave ret state⟩

theorem stopLoop (loopRet : Int) : Counts true (stopLoop loopRet : Exec World Int) :=
  .ite (fun _ => (control rfl).bind fun _ => .leaveLoop loopRet) fun _ => .leaveLoop loopRet

theorem enterLoop {next : Int → Exec World Int} (nextCounts : ∀ loopNum, Counts true (next loopNum)) :
    Counts false (Mrsh.enterLoop >>= next) := by
  intro state value after ended unbranched
  have ran : Exec.run Mrsh.enterLoop state = .done (state.nloops + 1) { state with nloops := state.nloops + 1 } := rfl
  obtain ⟨middle, between, entered, rest⟩ := Exec.run_bind_done.mp ended
  rw [ran] at entered
  cases entered
  obtain ⟨kept, count, abandons⟩ := nextCounts _ _ value after rest
    fun step reached => unbranched step (Prog.steps_bind_next ran reached)
  exact ⟨kept, count, .enter abandons⟩

theorem sequential : Sequential (Counts false : {α : Type} → Exec World α → Prop) where
  pure := .pure
  leaf := fun prog => .leaf prog
  record _ := .control rfl
  bind := .bind

end Counts

/-! ## Rounds -/

/-- A round that is an error has a negative status. -/
def FailsNegative (prog : Exec World Round) : Prop :=
  ∀ state ret after, Exec.run prog state = .done (.fail ret) after → ret < 0

namespace FailsNegative

theorem again (loopRet : Int) : FailsNegative (pure (.again loopRet) : Exec World Round) := by
  intro state ret after ended
  cases ended

theorem leave (loopRet : Int) : FailsNegative (pure (.leave loopRet) : Exec World Round) := by
  intro state ret after ended
  cases ended

theorem fail {ret : Int} (failed : ret < 0) : FailsNegative (pure (.fail ret) : Exec World Round) := by
  intro state _ after ended
  cases ended
  exact failed

theorem bind {first : Exec World α} {next : α → Exec World Round} (fails : ∀ value, FailsNegative (next value)) :
    FailsNegative (first >>= next) := by
  intro state ret after ended
  obtain ⟨value, between, _, rest⟩ := Exec.run_bind_done.mp ended
  exact fails value between ret after rest

theorem ite {condition : Prop} [Decidable condition] {yes no : Exec World Round}
    (ifTrue : condition → FailsNegative yes) (ifFalse : ¬condition → FailsNegative no) :
    FailsNegative (if condition then yes else no) := by
  split
  · exact ifTrue ‹_›
  · exact ifFalse ‹_›

theorem interruptLoop (loopNum loopRet : Int) : FailsNegative (interruptLoop loopNum loopRet : Exec World Round) := by
  refine .bind fun nloops => .ite (fun _ => .leave _) fun _ => .bind fun branch => ?_
  cases branch with
  | «continue» => exact .again loopRet
  | _ => exact .bind fun _ => .leave 0

end FailsNegative

section

variable [System World]

theorem runLoopBody_failsNegative (self : Tasks World) (ctx : Context) (loopNum : Int) (body : List CommandList) :
    FailsNegative (runLoopBody self ctx loopNum body) :=
  .bind fun loopRet => .ite (fun _ => .interruptLoop loopNum loopRet) fun _ =>
    .ite (fun failed => .fail failed) fun _ => .again loopRet

theorem loopRound_failsNegative (self : Tasks World) (ctx : Context) (lc : LoopClause) (loopNum loopRet : Int) :
    FailsNegative (loopRound self ctx lc loopNum loopRet) := by
  refine .bind fun ret => .ite (fun _ => .interruptLoop loopNum loopRet) fun _ => .ite (fun failed => .fail failed)
    fun _ => ?_
  exact .ite (fun _ => .leave loopRet) fun _ => runLoopBody_failsNegative self ctx loopNum lc.body

namespace Counts

omit [System World] in
theorem round {prog : Exec World Round} {rest : Round → Exec World Int} (counts : Counts false prog)
    (fails : FailsNegative prog) (again : ∀ loopRet, Counts true (rest (.again loopRet)))
    (leave : ∀ loopRet, rest (.leave loopRet) = Mrsh.leaveLoop loopRet)
    (fail : ∀ ret, rest (.fail ret) = Pure.pure ret) :
    Counts true (prog >>= rest) := by
  refine counts.bindResult fun round ⟨state, after, ended⟩ => ?_
  cases round with
  | again loopRet => exact again loopRet
  | leave loopRet =>
      rw [leave]
      exact .leaveLoop loopRet
  | fail ret =>
      rw [fail]
      exact .fail (fails state ret after ended)

variable {self : Tasks World} {ctx : Context}

theorem loopRounds {lc : LoopClause} (condition : Counts false (runCommandListArray self ctx lc.condition))
    (body : Counts false (runCommandListArray self ctx lc.body)) (loopNum : Int) (fuel : Nat) (loopRet : Int) :
    Counts true (loopRounds self ctx lc loopNum fuel loopRet) := by
  induction fuel generalizing loopRet with
  | zero => exact fun _ _ _ ended _ => nomatch ended
  | succ fuel ih =>
      refine .leafBind fun exit => .ite (fun _ => .stopLoop loopRet) fun _ => ?_
      exact .round (sequential.loopRound condition body loopNum loopRet)
        (loopRound_failsNegative self ctx lc loopNum loopRet)
        (fun loopRet => ih loopRet) (fun _ => rfl) fun _ => rfl

theorem forRounds {fc : ForClause} (body : Counts false (runCommandListArray self ctx fc.body)) (loopNum : Int)
    (fields : List Str) (loopRet : Int) : Counts true (forRounds self ctx fc loopNum fields loopRet) := by
  induction fields generalizing loopRet with
  | nil =>
      rw [Mrsh.forRounds]
      exact .leafBind fun exit => .ite (fun _ => .stopLoop loopRet) fun _ => .leaveLoop loopRet
  | cons field fields ih =>
      rw [Mrsh.forRounds]
      refine .leafBind fun exit => .ite (fun _ => .stopLoop loopRet) fun _ => .leafBind fun _ => ?_
      exact .round (sequential.runLoopBody body loopNum) (runLoopBody_failsNegative self ctx loopNum fc.body)
        (fun loopRet => ih loopRet) (fun _ => rfl) fun _ => rfl

theorem matchPatterns (words : ∀ word, Counts false (runWord self ctx word)) (addr : Address) (wordStr : Str)
    (before patterns : List Word) : Counts false (matchPatterns self ctx addr wordStr before patterns) := by
  induction patterns generalizing before with
  | nil => exact .pure _
  | cons pattern patterns ih =>
      refine .leafBind fun word => (words word).bind fun expanded => (control rfl).bind fun _ => ?_
      exact .ite (fun _ => .pure _) fun _ => .leafBind fun matched => .ite (fun _ => .pure _) fun _ => ih _

omit [System World] in
theorem branch {before : Exec World Unit} {branch : BranchControl} {next : Unit → Exec World Int}
    (keeps : ∀ state after, Exec.run before state = .done () after → after.callers = state.callers) :
    Counts false (before >>= fun _ => Mrsh.control (.setBranch branch) >>= next) := by
  intro state value after ended unbranched
  obtain ⟨_, between, ran, _⟩ := Exec.run_bind_done.mp ended
  have reached : (.inr (.setBranch branch), between) ∈
      (before >>= fun _ => Mrsh.control (.setBranch branch) >>= next).steps state :=
    Prog.steps_bind_next ran (Prog.steps_bind_first (List.mem_singleton_self _))
  exact absurd (keeps state between ran) (unbranched _ reached branch rfl)

end Counts

theorem Constructs.counts {prog : Exec World α} (constructs : Constructs prog) : Counts false prog := by
  induction constructs with
  | pure value => exact .pure value
  | stop reason => exact .stop reason
  | leaf prog => exact .leaf prog
  | bind _ _ first next => exact first.bind next
  | @control action still =>
      cases action with
      | push args => cases still
      | pop => cases still
      | setLoops nloops => cases still
      | _ => exact .control rfl
  | frame args body => exact .frame args body.interprets.balanced
  | patterns addr own wordStr _ words => exact .leafBind fun patterns => .matchPatterns words addr wordStr [] patterns
  | breakLoops argv0 n => exact .leafBind fun nloops => .branch fun state after ended => by cases ended; rfl
  | returnWith n => exact .branch fun state after ended => by cases ended; rfl
  | exitWith status => exact .branch fun state after ended => (Balanced.leaf _).done ended
  | loopClause _ _ condition body => exact .enterLoop fun loopNum => .loopRounds condition body loopNum _ 0
  | forClause _ _ words body =>
      refine .enterLoop fun loopNum => words.bind fun (ret, fields) => ?_
      exact .ite (fun failed => .fail failed) fun _ => .forRounds body loopNum fields 0

/-- Where no command branches in the frame, each abandoned loop has raised the level by one. -/
theorem runCommand_abandons {fuel : Nat} {ctx : Context} {cmd : Command} {state after : Shell World} {status : Int}
    (unbranched : Unbranched state.callers (runCommand (tasks fuel) ctx cmd : Exec World Int) state)
    (ended : Exec.run (runCommand (tasks fuel) ctx cmd) state = .done status after) :
    ∃ count : Nat, Abandons false (runCommand (tasks fuel) ctx cmd) state count ∧
      after.nloops = state.nloops + count := by
  have counts : Counts false (runCommand (tasks fuel) ctx cmd : Exec World Int) :=
    (runCommand_constructs (tasksConstruct fuel) ctx cmd).counts
  obtain ⟨_, count, abandons⟩ := counts state status after ended unbranched
  have level := abandons.nloops_eq ended
  simp only [levelsOf, Int.sub_zero] at level
  exact ⟨count, abandons, level⟩

/-- Where no command branches in the frame, the level of the loops is the same after a command
exactly if none of the loops of the frame is abandoned. -/
theorem runCommand_nloops_iff (fuel : Nat) (ctx : Context) (cmd : Command) (state after : Shell World) (status : Int)
    (unbranched : Unbranched state.callers (runCommand (tasks fuel) ctx cmd : Exec World Int) state)
    (ended : Exec.run (runCommand (tasks fuel) ctx cmd) state = .done status after) :
    after.nloops = state.nloops ↔ Abandons false (runCommand (tasks fuel) ctx cmd) state 0 := by
  obtain ⟨count, abandons, level⟩ := runCommand_abandons unbranched ended
  constructor
  · intro same
    obtain rfl : count = 0 := by omega
    exact abandons
  · intro none
    have same := none.nloops_eq ended
    simp only [levelsOf] at same
    omega

end

end

/-- No step says what kind of branch is taken. -/
def branchesNowhere (prog : Exec Machine Int) (state : Shell Machine) : Bool :=
  (prog.steps state).all fun step =>
    match step.1 with
    | .inr (.setBranch _) => false
    | _ => true

theorem unbranched_of_nowhere {prog : Exec Machine Int} {state : Shell Machine}
    (nowhere : branchesNowhere prog state = true) (callers : List CallFrame) : Unbranched callers prog state := by
  intro step reached branch same
  have allowed := List.all_eq_true.mp nowhere step reached
  rw [same] at allowed
  cases allowed

/-- `for y in a; do : <&5; done`, whose descriptor is given. -/
def colonLoop (descriptor : Str) : Command :=
  .forClause (forWord ['y'] ['a'] (.simpleCommand (colonWith [redirectDup .lessand descriptor])))

/-- A loop whose redirection succeeds. -/
theorem runCommand_nloops_kept : ∃ status after,
    Exec.run (runCommand (tasks 5) inJob (colonLoop ['0'])) newShell = .done status after ∧
      Abandons false (runCommand (tasks 5) inJob (colonLoop ['0'])) newShell 0 := by
  have ended : (Exec.run (runCommand (tasks 5) inJob (colonLoop ['0'])) newShell).value? = some 0 := by decide +kernel
  exact ⟨_, _, Outcome.eq_done_of_value? ended, (runCommand_nloops_iff 5 inJob (colonLoop ['0']) newShell _ 0
    (unbranched_of_nowhere (by decide +kernel) _) (Outcome.eq_done_of_value? ended)).mp (by decide +kernel)⟩

/-- A loop whose redirection fails. -/
theorem failed_redirection_raises_nloops : ∃ status after,
    Exec.run (runCommand (tasks 5) inJob (colonLoop ['x'])) newShell = .done status after ∧
      Unbranched newShell.callers (runCommand (tasks 5) inJob (colonLoop ['x'])) newShell ∧
        after.nloops ≠ newShell.nloops := by
  have ended : (Exec.run (runCommand (tasks 5) inJob (colonLoop ['x'])) newShell).value? = some taskStatusError := by
    decide +kernel
  refine ⟨_, _, Outcome.eq_done_of_value? ended, unbranched_of_nowhere (by decide +kernel) _, ?_⟩
  decide +kernel

end Mrsh
