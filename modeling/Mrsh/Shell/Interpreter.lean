import Mrsh.Shell.HeedingPrograms

namespace Mrsh

open Mrsh.Data

/-! # How the interpreter is built

The programs of the interpreter are built in a few ways only: a call frame is pushed
around the body of a function and nowhere else, and the patterns of a case item are
replaced while they are matched and nowhere else. A property that all these ways
preserve holds of every command.
-/

section

variable {World : Type} [System World]

/-- An action that neither touches the call stack nor replaces a pattern. -/
def ControlAction.isPlain : ControlAction → Bool
  | .push _ => false
  | .pop => false
  | .setPatterns .. => false
  | _ => true

/-- The matching of the patterns of a case item, which are read first. -/
def matchItem (self : Tasks World) (ctx : Context) (addr : Address) (own : List Word) (wordStr : Str) :
    Exec World (Except Int Bool) := do
  let patterns ← leaf (gets fun state => (state.casePatterns addr).getD own)
  matchPatterns self ctx addr wordStr [] patterns

/-- The body of a function between the push and the pop of its frame. -/
def withFrame (args : List Str) (body : Exec World Int) : Exec World Int := do
  pushFrame args
  let ret ← body
  popFrame
  pure ret

inductive Interprets : {α : Type} → Exec World α → Prop where
  | pure {α : Type} (value : α) : Interprets (pure value)
  | stop {α : Type} (reason : Ending) : Interprets (Prog.stop reason : Exec World α)
  | leaf {α : Type} (prog : Leaf World α) [Heeding prog] : Interprets (leaf prog)
  | bind {α β : Type} {first : Exec World α} {next : α → Exec World β} (firstInterprets : Interprets first)
      (nextInterprets : ∀ value, Interprets (next value)) : Interprets (first >>= next)
  | control {action : ControlAction} (plain : action.isPlain = true) : Interprets (control action)
  | frame (args : List Str) {body : Exec World Int} (bodyInterprets : Interprets body) :
      Interprets (withFrame args body)
  | patterns {self : Tasks World} {ctx : Context} (addr : Address) (own : List Word) (wordStr : Str)
      (words : ∀ word, Interprets (runWord self ctx word)) : Interprets (matchItem self ctx addr own wordStr)

namespace Interprets

variable {α β : Type}

theorem ite {condition : Prop} [Decidable condition] {yes no : Exec World α} (ifTrue : Interprets yes)
    (ifFalse : Interprets no) : Interprets (if condition then yes else no) := by
  split
  · exact ifTrue
  · exact ifFalse

theorem leafBind {prog : Leaf World α} [Heeding prog] {next : α → Exec World β}
    (interprets : ∀ value, Interprets (next value)) : Interprets (Mrsh.leaf prog >>= next) :=
  .bind (.leaf prog) interprets

theorem record (event : Event) : Interprets (Mrsh.record event : Exec World Unit) := .control rfl

end Interprets

/-! ## The ways in which loops are built

The level of the loops is changed by the two loop clauses and by `break`, `continue` and
`return`, which together with `exit` are the only ones that say what kind of branch is taken.
-/

/-- An action that changes the call frame neither by a push or pop nor by a branch or loop. -/
def ControlAction.isStill : ControlAction → Bool
  | .setBranch _ => false
  | .setLoops _ => false
  | action => action.isPlain

inductive Constructs : {α : Type} → Exec World α → Prop where
  | pure {α : Type} (value : α) : Constructs (pure value)
  | stop {α : Type} (reason : Ending) : Constructs (Prog.stop reason : Exec World α)
  | leaf {α : Type} (prog : Leaf World α) [Heeding prog] : Constructs (leaf prog)
  | bind {α β : Type} {first : Exec World α} {next : α → Exec World β} (firstConstructs : Constructs first)
      (nextConstructs : ∀ value, Constructs (next value)) : Constructs (first >>= next)
  | control {action : ControlAction} (still : action.isStill = true) : Constructs (control action)
  | frame (args : List Str) {body : Exec World Int} (bodyConstructs : Constructs body) :
      Constructs (withFrame args body)
  | patterns {self : Tasks World} {ctx : Context} (addr : Address) (own : List Word) (wordStr : Str)
      (words : ∀ word, Constructs (runWord self ctx word)) : Constructs (matchItem self ctx addr own wordStr)
  | breakLoops (argv0 : Str) (n : Int) : Constructs (breakLoops argv0 n)
  | returnWith (n : Int) : Constructs (returnWith n)
  | exitWith (status : Nat) : Constructs (exitWith status)
  | loopClause {self : Tasks World} {ctx : Context} {lc : LoopClause}
      (condition : Constructs (runCommandListArray self ctx lc.condition))
      (body : Constructs (runCommandListArray self ctx lc.body)) : Constructs (runLoopClause self ctx lc)
  | forClause {self : Tasks World} {ctx : Context} {fc : ForClause}
      (words : Constructs (expandWords self ctx fc.wordList))
      (body : Constructs (runCommandListArray self ctx fc.body)) : Constructs (runForClause self ctx fc)

namespace Constructs

variable {α β : Type}

theorem ite {condition : Prop} [Decidable condition] {yes no : Exec World α} (ifTrue : Constructs yes)
    (ifFalse : Constructs no) : Constructs (if condition then yes else no) := by
  split
  · exact ifTrue
  · exact ifFalse

theorem leafBind {prog : Leaf World α} [Heeding prog] {next : α → Exec World β}
    (constructs : ∀ value, Constructs (next value)) : Constructs (Mrsh.leaf prog >>= next) :=
  .bind (.leaf prog) constructs

theorem record (event : Event) : Constructs (Mrsh.record event : Exec World Unit) := .control rfl

end Constructs

/-! ## Programs that end the process -/

/-- The program does not come back. -/
def NeverReturns {α : Type} (prog : Exec World α) : Prop := ∀ state ret after, Exec.run prog state ≠ .done ret after

namespace NeverReturns

variable {α β : Type}

omit [System World]

theorem exit (status : Int) : NeverReturns (leaf (exitProcess status) : Exec World α) := by
  intro state ret after ended
  cases ended

theorem bind {first : Exec World β} {next : β → Exec World α} (never : ∀ value, NeverReturns (next value)) :
    NeverReturns (first >>= next) := by
  intro state ret after ended
  obtain ⟨value, between, -, ended⟩ := Exec.run_bind_done.mp ended
  exact never value between ret after ended

theorem ite {condition : Prop} [Decidable condition] {yes no : Exec World α} (yesNever : NeverReturns yes)
    (noNever : NeverReturns no) : NeverReturns (if condition then yes else no) := by
  split
  · exact yesNever
  · exact noNever

end NeverReturns

theorem runAsyncChild_neverReturns (self : Tasks World) (ctx : Context) (andOrList : AndOrList) :
    NeverReturns (runAsyncChild self ctx andOrList) :=
  .bind fun _ => .bind fun _ => .bind fun _ => .bind fun _ => .bind fun _ => .bind fun _ => .exit _

/-! ## What a round is made of -/

/-- A property of programs that sequencing preserves. -/
structure Sequential (holds : {α : Type} → Exec World α → Prop) : Prop where
  pure : ∀ {α : Type} (value : α), holds (pure value)
  leaf : ∀ {α : Type} (prog : Leaf World α) [Heeding prog], holds (leaf prog)
  record : ∀ event, holds (record event)
  bind : ∀ {α β : Type} {first : Exec World α} {next : α → Exec World β}, holds first → (∀ value, holds (next value)) →
    holds (first >>= next)

namespace Sequential

variable {holds : {α : Type} → Exec World α → Prop}

omit [System World] in
theorem either {α : Type} {condition : Prop} [Decidable condition] {yes no : Exec World α} (ifTrue : holds yes)
    (ifFalse : holds no) : holds (if condition then yes else no) := by
  split
  · exact ifTrue
  · exact ifFalse

variable (sequential : Sequential holds)

include sequential

omit [System World] in
theorem interruptLoop (loopNum loopRet : Int) : holds (interruptLoop loopNum loopRet) := by
  refine sequential.bind (sequential.leaf _) fun nloops => either (sequential.pure _) ?_
  refine sequential.bind (sequential.leaf _) fun branch => ?_
  cases branch with
  | «continue» => exact sequential.pure _
  | _ => exact sequential.bind (sequential.record _) fun _ => sequential.pure _

variable {self : Tasks World} {ctx : Context}

theorem runLoopBody {body : List CommandList} (bodyHolds : holds (runCommandListArray self ctx body)) (loopNum : Int) :
    holds (runLoopBody self ctx loopNum body) := by
  refine sequential.bind bodyHolds fun loopRet => either (sequential.interruptLoop _ _) ?_
  exact either (sequential.pure _) (sequential.pure _)

theorem loopRound {lc : LoopClause} (conditionHolds : holds (runCommandListArray self ctx lc.condition))
    (bodyHolds : holds (runCommandListArray self ctx lc.body)) (loopNum loopRet : Int) :
    holds (loopRound self ctx lc loopNum loopRet) := by
  refine sequential.bind conditionHolds fun ret => either (sequential.interruptLoop _ _) ?_
  refine either (sequential.pure _) (either (sequential.pure _) ?_)
  exact sequential.runLoopBody bodyHolds loopNum

end Sequential

namespace Interprets

theorem sequential : Sequential (Interprets : {α : Type} → Exec World α → Prop) where
  pure := .pure
  leaf := fun prog => .leaf prog
  record := .record
  bind := .bind

theorem leaveLoop (ret : Int) : Interprets (leaveLoop ret : Exec World Int) :=
  .leafBind fun _ => .bind (.control rfl) fun _ => .pure _

theorem stopLoop (loopRet : Int) : Interprets (stopLoop loopRet : Exec World Int) :=
  .ite (.bind (.record _) fun _ => .leaveLoop loopRet) (.leaveLoop loopRet)

theorem enterLoop : Interprets (enterLoop : Exec World Int) :=
  .leafBind fun _ => .bind (.control rfl) fun _ => .pure _

variable {self : Tasks World} {ctx : Context}

theorem loopRounds {lc : LoopClause} (condition : Interprets (runCommandListArray self ctx lc.condition))
    (body : Interprets (runCommandListArray self ctx lc.body)) (loopNum : Int) (fuel : Nat) (loopRet : Int) :
    Interprets (loopRounds self ctx lc loopNum fuel loopRet) := by
  induction fuel generalizing loopRet with
  | zero => exact .leaf _
  | succ fuel ih =>
      refine .leafBind fun exit => .ite (.stopLoop _) ?_
      refine .bind (sequential.loopRound condition body loopNum loopRet) fun round => ?_
      cases round with
      | again loopRet => exact ih loopRet
      | leave loopRet => exact .leaveLoop loopRet
      | fail ret => exact .pure ret

theorem forRounds {fc : ForClause} (body : Interprets (runCommandListArray self ctx fc.body)) (loopNum : Int)
    (fields : List Str) (loopRet : Int) : Interprets (forRounds self ctx fc loopNum fields loopRet) := by
  induction fields generalizing loopRet with
  | nil =>
      rw [Mrsh.forRounds]
      exact .leafBind fun exit => .ite (.stopLoop _) (.leaveLoop _)
  | cons field fields ih =>
      rw [Mrsh.forRounds]
      refine .leafBind fun exit => .ite (.stopLoop _) (.leafBind fun _ => ?_)
      refine .bind (sequential.runLoopBody body loopNum) fun round => ?_
      cases round with
      | again loopRet => exact ih loopRet
      | leave loopRet => exact .leaveLoop loopRet
      | fail ret => exact .pure ret

end Interprets

theorem Constructs.interprets {α : Type} {prog : Exec World α} (constructs : Constructs prog) : Interprets prog := by
  induction constructs with
  | pure value => exact .pure value
  | stop reason => exact .stop reason
  | leaf prog => exact .leaf prog
  | bind _ _ first next => exact .bind first next
  | @control action still =>
      cases action with
      | setBranch _ => cases still
      | setLoops _ => cases still
      | _ => exact .control still
  | frame args _ body => exact .frame args body
  | patterns addr own wordStr _ words => exact .patterns addr own wordStr words
  | breakLoops argv0 n => exact .leafBind fun _ => .bind (.control rfl) fun _ => .bind (.control rfl) fun _ => .pure _
  | returnWith n => exact .bind (.control rfl) fun _ => .bind (.control rfl) fun _ => .leafBind fun _ => .pure _
  | exitWith status => exact .leafBind fun _ => .bind (.control rfl) fun _ => .bind (.record _) fun _ => .pure _
  | loopClause _ _ condition body => exact .bind .enterLoop fun loopNum => .loopRounds condition body loopNum _ 0
  | forClause _ _ words body =>
      exact .bind .enterLoop fun loopNum => .bind words
        fun (ret, fields) => .ite (.pure _) (.forRounds body loopNum fields 0)

/-! ## The interpreter -/

/-- The calls of the next level are built like this. -/
structure TasksConstruct (level : Tasks World) : Prop where
  runWord : ∀ ctx word, Constructs (level.runWord ctx word)
  runCommand : ∀ ctx cmd, Constructs (level.runCommand ctx cmd)
  mrshRunProgram : ∀ prog, Constructs (level.mrshRunProgram prog)
  mrshRunBuiltin : ∀ args, Constructs (level.mrshRunBuiltin args)

variable {self : Tasks World} (level : TasksConstruct self)

include level

/-! ## Expansions -/

theorem runWordCommandChild_constructs {α : Type} (program : Option Program) (fds : Int × Int) :
    Constructs (runWordCommandChild self program fds : Exec World α) := by
  have ends : Constructs (do
      let exit ← leaf (gets (·.exit))
      leaf (exitProcess (if 0 ≤ exit then exit else 0)) : Exec World α) := .leafBind fun _ => .leaf _
  refine .leafBind fun _ => .ite (.leafBind fun _ => .leafBind fun _ => ?_) ?_ <;>
    refine .leafBind fun _ => .ite (.leafBind fun _ => ?_) ?_
  all_goals
    cases program with
    | none => exact ends
    | some program => exact .bind (level.mrshRunProgram program) fun _ => ends

theorem runWordCommand_constructs (word : Word) (program : Option Program) :
    Constructs (runWordCommand self word program) := by
  refine .leafBind fun piped => ?_
  cases piped with
  | error errno => exact .leafBind fun _ => .pure _
  | ok fds =>
      refine .leafBind fun forked => ?_
      cases forked with
      | error errno => exact .leafBind fun _ => .leafBind fun _ => .pure _
      | ok pid =>
          refine .ite (runWordCommandChild_constructs level program fds) (.leafBind fun _ => .leafBind fun _ =>
            .leafBind fun buf => ?_)
          cases buf with
          | none => exact .leafBind fun _ => .pure _
          | some buf => exact .leafBind fun _ => .leafBind fun _ => .pure _

theorem unsetMessage_constructs (ctx : Context) (arg : Option Word) : Constructs (unsetMessage self ctx arg) := by
  cases arg with
  | none => exact .pure _
  | some arg =>
      refine .leafBind fun word => .bind (level.runWord ctx word) fun result => ?_
      obtain ⟨ret, word⟩ := result
      exact .ite (.pure _) (.leafBind fun _ => .pure _)

theorem applyParameterCondOp_constructs (ctx : Context) (wp : WordParameter) (value : Option Word) :
    Constructs (applyParameterCondOp self ctx wp value) := by
  unfold applyParameterCondOp
  split
  · exact .pure _
  · exact .leafBind fun _ => .ite (.leafBind fun _ => .pure _) (.pure _)
  · refine .leafBind fun _ => .ite (.leafBind fun word => .bind (level.runWord ctx word) fun result => ?_) (.pure _)
    obtain ⟨ret, word⟩ := result
    exact .ite (.pure _) (.leafBind fun _ => .leafBind fun _ => .pure _)
  · refine .leafBind fun _ => .ite (.bind (unsetMessage_constructs level ctx wp.arg) fun msg => ?_) (.pure _)
    cases msg with
    | error ret => exact .pure _
    | ok msg => exact .leafBind fun _ => .pure _
  · exact .leafBind fun _ => .ite (.pure _) (.leafBind fun _ => .pure _)
  · exact .leaf _

theorem applyParameterStrOp_constructs (ctx : Context) (wp : WordParameter) (str : Option Str) :
    Constructs (applyParameterStrOp self ctx wp str) := by
  unfold applyParameterStrOp
  refine .ite ?_ ?_
  · refine .leafBind fun _ => .ite (.pure _) (.pure _)
  · split
    · exact .pure _
    · exact .pure _
    · refine .leafBind fun pattern => .bind (level.runWord ctx pattern) fun result => ?_
      obtain ⟨ret, pattern⟩ := result
      refine .ite (.pure _) (.leafBind fun found => ?_)
      cases found with
      | none => exact .leafBind fun _ => .pure _
      | some pattern => exact .pure _

theorem applyParameterOp_constructs (ctx : Context) (wp : WordParameter) (value : Option Str) (doubleQuoted : Bool) :
    Constructs (applyParameterOp self ctx wp value doubleQuoted) :=
  .ite (.leafBind fun _ => applyParameterCondOp_constructs level ctx wp _)
    (.ite (.leafBind fun _ => .leafBind fun _ => .pure _) (applyParameterStrOp_constructs level ctx wp value))

theorem runWordParameter_constructs (ctx : Context) (doubleQuoted : Bool) (wp : WordParameter) :
    Constructs (runWordParameter self ctx doubleQuoted wp) := by
  refine .leafBind fun value => .bind (applyParameterOp_constructs level ctx wp _ doubleQuoted) fun result => ?_
  cases result with
  | error ret => exact .pure _
  | ok result =>
      refine .leafBind fun result => ?_
      rcases result with _ | word
      · exact .pure _
      · cases word with
        | string str singleQuoted splitFields range => exact .pure _
        | _ =>
            refine .bind (level.runWord ctx _) fun result => ?_
            obtain ⟨ret, word⟩ := result
            exact .ite (.pure _) (.pure _)

omit level in
mutual

theorem runWordIn_constructs (level : TasksConstruct self) (ctx : Context) (doubleQuoted : Bool) :
    ∀ word, Constructs (runWordIn self ctx doubleQuoted word)
  | .string _ _ _ _ => .pure _
  | .parameter wp => runWordParameter_constructs level ctx doubleQuoted wp
  | .command program _ _ => runWordCommand_constructs level _ program
  | .arithmetic body => .bind (runWordIn_constructs level ctx false body) fun (_, _) => .ite (.pure _) (.leaf _)
  | .list children listQuoted _ _ =>
      .bind (runWords_constructs level ctx _ listQuoted children) fun (_, _) => .ite (.pure _) (.pure _)
  | .null => .leaf _

theorem runWords_constructs (level : TasksConstruct self) (ctx : Context) (doubleQuoted listQuoted : Bool) :
    ∀ children, Constructs (runWords self ctx doubleQuoted listQuoted children)
  | [] => .pure _
  | child :: children =>
      .bind (runWordIn_constructs level ctx doubleQuoted child) fun (_, _) => .ite (.pure _)
        (.bind (runWords_constructs level ctx doubleQuoted listQuoted children) fun (_, _) => .pure _)

end

theorem runWord_constructs (ctx : Context) (word : Word) : Constructs (runWord self ctx word) :=
  runWordIn_constructs level ctx false word

theorem expandWord_constructs (ctx : Context) (word : Word) : Constructs (expandWord self ctx word) := by
  refine .leafBind fun word => .leafBind fun word => .bind (runWord_constructs level ctx word) fun (ret, word) => ?_
  refine .ite (.pure _) (.leafBind fun _ => .leafBind fun _ => .leafBind fun _ => .ite ?_ ?_)
  · exact .leafBind fun _ => .pure _
  · refine .leafBind fun strs => ?_
    cases strs with
    | none => exact .pure _
    | some strs => exact .pure _

theorem expandWords_constructs (ctx : Context) (words : List Word) : Constructs (expandWords self ctx words) := by
  induction words with
  | nil => exact .pure _
  | cons word words ih =>
      refine .bind (expandWord_constructs level ctx word) fun (ret, strs) => .ite (.pure _) ?_
      exact .bind ih fun (_, _) => .pure _

theorem mrshRunWord_constructs (word : Word) : Constructs (mrshRunWord self word) :=
  .leafBind fun _ => .leafBind fun _ => .bind (runWord_constructs level _ _) fun (_, _) => .leafBind fun _ => .pure _

/-! ## Simple commands -/

theorem expandAssignments_constructs (ctx : Context) (assigns : List Assignment) :
    Constructs (expandAssignments self ctx assigns) := by
  induction assigns with
  | nil => exact .pure _
  | cons assign assigns ih =>
      refine .leafBind fun value => .bind (runWord_constructs level ctx value) fun (ret, value) => .ite (.pure _) ?_
      exact .bind ih fun (_, _) => .pure _

theorem runPlainWords_constructs (ctx : Context) (words : List Word) : Constructs (runPlainWords self ctx words) := by
  induction words with
  | nil => exact .pure _
  | cons word words ih =>
      refine .leafBind fun word => .bind (runWord_constructs level ctx word) fun (ret, word) => .ite (.pure _) ?_
      exact .bind ih fun (_, _) => .pure _

theorem expandRedirects_constructs (ctx : Context) (redirs : List IoRedirect) :
    Constructs (expandRedirects self ctx redirs) := by
  induction redirs with
  | nil => exact .pure _
  | cons redir redirs ih =>
      refine .bind (runPlainWords_constructs level ctx _) fun (ret, name) => .ite (.pure _) ?_
      refine .bind (runPlainWords_constructs level ctx _) fun (ret, lines) => .ite (.pure _) ?_
      exact .bind ih fun (_, _) => .pure _

theorem expandCommand_constructs (ctx : Context) (sc : SimpleCommand) (name : Word) :
    Constructs (expandCommand self ctx sc name) := by
  refine .bind (expandWords_constructs level ctx _) fun (ret, args) => .ite (.pure _) ?_
  refine .leafBind fun _ => .bind (expandAssignments_constructs level ctx _) fun (ret, assignments) => .ite (.pure _) ?_
  exact .bind (expandRedirects_constructs level ctx _) fun (_, _) => .ite (.pure _) (.pure _)

theorem traceCommand_constructs (args : List Str) : Constructs (traceCommand self args) := by
  have expandStr : ∀ src, Constructs (Mrsh.expandStr self src) := by
    intro src
    refine .leafBind fun (word, parser) => ?_
    cases word with
    | none =>
        dsimp only
        cases parser.error with
        | none => exact .leafBind fun _ => .pure _
        | some error => exact .leafBind fun _ => .pure _
    | some word =>
        exact .bind (mrshRunWord_constructs level word) fun (_, _) => .leafBind fun _ => .pure _
  have expandPs : ∀ name, Constructs (Mrsh.expandPs self name) := by
    intro name
    refine .leafBind fun ps => ?_
    cases ps with
    | none => exact .pure _
    | some ps => exact .bind (expandStr ps) fun _ => .ite (.leafBind fun _ => .pure _) (.pure _)
  refine .leafBind fun trace => .ite ?_ (.pure _)
  exact .bind (.bind (expandPs _) fun _ => .pure _) fun _ => .leaf _

theorem runOnlyAssignments_constructs (ctx : Context) (sc : SimpleCommand) :
    Constructs (runOnlyAssignments self ctx sc) := by
  refine .leafBind fun _ => .leafBind fun assigns => .bind (expandAssignments_constructs level ctx assigns)
    fun (ret, assignments) => ?_
  exact .ite (.pure _) (.leaf _)

theorem runBuiltin_constructs (sc : SimpleCommand) (argv : List Str) : Constructs (runBuiltin self sc argv) := by
  refine .leafBind fun fds => ?_
  cases fds with
  | none => exact .pure _
  | some fds => exact .bind (level.mrshRunBuiltin argv) fun _ => .leafBind fun _ => .ite (.pure _) (.pure _)

omit [System World] level in
theorem runFunction_withFrame (ctx : Context) (body : Command) (args : List Str) :
    runFunction self ctx body args = withFrame args (do
      let generation ← leaf newSerial
      let body ← leaf (orCrash (mrshCommandCopy generation body))
      self.runCommand ctx body) := by
  simp only [runFunction, withFrame, bind_assoc]

theorem runFunction_constructs (ctx : Context) (body : Command) (args : List Str) :
    Constructs (runFunction self ctx body args) := by
  rw [runFunction_withFrame]
  exact .frame args (.leafBind fun _ => .leafBind fun body => level.runCommand ctx body)

theorem runSimpleCommand_constructs (ctx : Context) (sc : SimpleCommand) :
    Constructs (runSimpleCommand self ctx sc) := by
  refine .bind (.record _) fun _ => ?_
  cases sc.name with
  | none => exact runOnlyAssignments_constructs level ctx sc
  | some name =>
      refine .leafBind fun _ => .leafBind fun sc => .bind (expandCommand_constructs level ctx sc name)
        fun expanded => ?_
      rcases expanded with ret | ⟨sc, args⟩
      · exact .pure _
      · refine .bind (traceCommand_constructs level args) fun _ => .leafBind fun body => ?_
        cases body with
        | none => exact .ite (runBuiltin_constructs level sc args) (.leaf _)
        | some body => exact runFunction_constructs level ctx body args

/-! ## Pipelines and lists -/

theorem runPipelineChild_constructs (ctx : Context) (fds : PipelineFds) (cmd : Command) :
    Constructs (runPipelineChild self ctx fds cmd) :=
  .leafBind fun _ => .ite (.bind (level.runCommand ctx cmd) fun _ => .leaf _) (.pure _)

theorem startCommands_constructs (ctx : Context) (cmds : List Command) (curStdin : Option Int) :
    Constructs (startCommands self ctx curStdin cmds) := by
  induction cmds generalizing curStdin with
  | nil => exact .pure _
  | cons cmd cmds ih =>
      refine .leafBind fun pipe => ?_
      rcases pipe with _ | ⟨nextStdin, curStdout⟩
      · exact .pure _
      · refine .leafBind fun forked => ?_
        cases forked with
        | error errno => exact .pure _
        | ok pid =>
            refine .ite (.bind (runPipelineChild_constructs level ctx _ cmd) fun _ => .pure _) ?_
            refine .leafBind fun _ => .leafBind fun _ => .leafBind fun _ => .bind (ih nextStdin) fun procs => ?_
            cases procs with
            | error ret => exact .pure _
            | ok procs => exact .pure _

theorem runPipeline_constructs (ctx : Context) (pl : Pipeline) : Constructs (runPipeline self ctx pl) := by
  refine .leafBind fun ctx => ?_
  rcases pl.commands with _ | ⟨cmd, _ | ⟨second, cmds⟩⟩
  · exact .leaf _
  · exact .bind (level.runCommand ctx cmd) fun _ => .pure _
  · refine .bind (startCommands_constructs level ctx _ none) fun procs => ?_
    cases procs with
    | error ret => exact .pure _
    | ok procs => exact .leafBind fun _ => .pure _

theorem runAndOrList_constructs (ctx : Context) :
    ∀ list, Constructs (runAndOrList (runPipeline self ctx) (record .orInterrupted) list)
  | .pipeline pl => runPipeline_constructs level ctx pl
  | .binop .and left right _ =>
      .bind (runAndOrList_constructs ctx left) fun _ => .ite (.pure _) (runAndOrList_constructs ctx right)
  | .binop .or left right _ =>
      .bind (runAndOrList_constructs ctx left) fun _ => .ite (.pure _)
        (.ite (.bind (.record _) fun _ => runAndOrList_constructs ctx right) (runAndOrList_constructs ctx right))

theorem runAsync_constructs (ctx : Context) (list : CommandList) : Constructs (runAsync self ctx list) := by
  refine .leafBind fun ctx => .leafBind fun forked => ?_
  cases forked with
  | error errno => exact .leafBind fun _ => .pure _
  | ok pid =>
      refine .ite ?_ (.leafBind fun _ => .pure _)
      refine .leafBind fun _ => .leafBind fun _ => .leafBind fun _ => .leafBind fun _ => .leafBind fun _ => ?_
      exact .bind (runAndOrList_constructs level ctx list.andOrList) fun _ => .leaf _

theorem runList_constructs (ctx : Context) (list : CommandList) : Constructs (runList self ctx list) :=
  .ite (runAsync_constructs level ctx list) (runAndOrList_constructs level ctx list.andOrList)

theorem runLists_constructs (ctx : Context) (lists : List CommandList) (ret : Int) :
    Constructs (runLists self ctx lists ret) := by
  induction lists generalizing ret with
  | nil => exact .pure _
  | cons list lists ih =>
      exact .bind (runList_constructs level ctx list) fun ret => .ite (.pure _) (.leafBind fun _ => ih ret)

theorem runCommandListArray_constructs (ctx : Context) (array : List CommandList) :
    Constructs (runCommandListArray self ctx array) := runLists_constructs level ctx array 0

/-! ## Compound commands -/

theorem runSubshell_constructs (ctx : Context) (body : List CommandList) : Constructs (runSubshell self ctx body) := by
  refine .leafBind fun forked => ?_
  cases forked with
  | error errno => exact .leafBind fun _ => .pure _
  | ok pid =>
      refine .ite ?_ (.leaf _)
      refine .leafBind fun _ => .leafBind fun _ => .leafBind fun _ => ?_
      exact .bind (runCommandListArray_constructs level ctx body) fun _ => .leafBind fun _ => .leaf _

theorem runIfClause_constructs (ctx : Context) (ic : IfClause) : Constructs (runIfClause self ctx ic) := by
  refine .bind (runCommandListArray_constructs level ctx ic.condition) fun ret => .ite (.pure _) (.ite ?_ ?_)
  · exact runCommandListArray_constructs level ctx ic.body
  · cases ic.elsePart with
    | none => exact .pure _
    | some elsePart => exact level.runCommand ctx elsePart

theorem runCaseItems_constructs (ctx : Context) (wordStr : Str) (items : List CaseItem) :
    Constructs (runCaseItems self ctx wordStr items) := by
  induction items with
  | nil => exact .pure _
  | cons ci items ih =>
      have readsFirst : runCaseItems self ctx wordStr (ci :: items) =
          matchItem self ctx ci.addr ci.patterns wordStr >>= _ := (bind_assoc _ _ _).symm
      rw [readsFirst]
      refine .bind (.patterns _ _ _ (runWord_constructs level ctx)) fun matched => ?_
      rcases matched with ret | _ | _
      · exact .pure _
      · exact ih
      · exact runCommandListArray_constructs level ctx ci.body

theorem runCaseClause_constructs (ctx : Context) (cc : CaseClause) : Constructs (runCaseClause self ctx cc) := by
  refine .leafBind fun word => .leafBind fun word => .bind (runWord_constructs level ctx word) fun (ret, word) => ?_
  exact .ite (.pure _) (.leafBind fun wordStr => runCaseItems_constructs level ctx wordStr cc.items)

theorem runCommand_constructs (ctx : Context) (cmd : Command) : Constructs (runCommand self ctx cmd) := by
  cases cmd with
  | simpleCommand sc => exact runSimpleCommand_constructs level ctx sc
  | braceGroup bg => exact runCommandListArray_constructs level ctx bg.body
  | subshell s => exact runSubshell_constructs level ctx s.body
  | ifClause ic => exact runIfClause_constructs level ctx ic
  | loopClause lc =>
      exact .loopClause (runCommandListArray_constructs level ctx lc.condition)
        (runCommandListArray_constructs level ctx lc.body)
  | forClause fc =>
      exact .forClause (expandWords_constructs level ctx fc.wordList) (runCommandListArray_constructs level ctx fc.body)
  | caseClause cc => exact runCaseClause_constructs level ctx cc
  | functionDefinition fnd => exact .leaf _

/-! ## Builtins -/

omit level in
theorem builtinBreak_constructs (args : List Str) : Constructs (builtinBreak args : Exec World Int) := by
  unfold builtinBreak
  split
  · exact .breakLoops _ _
  · exact .ite (.leaf _) (.breakLoops _ _)
  · exact .leaf _

omit level in
theorem builtinReturn_constructs (args : List Str) : Constructs (builtinReturn args : Exec World Int) := by
  unfold builtinReturn
  split
  · exact .returnWith _
  · exact .ite (.leaf _) (.returnWith _)
  · exact .leaf _

omit level in
theorem builtinExit_constructs (args : List Str) : Constructs (builtinExit args : Exec World Int) := by
  unfold builtinExit
  split
  · exact .exitWith _
  · exact .ite (.leaf _) (.exitWith _)
  · exact .leaf _

theorem runParsed_constructs (name : Str) (program : Option Program) (error : Option (Str × Position)) :
    Constructs (runParsed self name program error) := by
  rcases error with _ | ⟨msg, pos⟩
  · cases program with
    | none => exact .pure _
    | some program => exact level.mrshRunProgram program
  · exact .leaf _

theorem builtinEval_constructs (args : List Str) : Constructs (builtinEval self args) := by
  unfold builtinEval
  split
  · exact .leaf _
  · refine .leafBind fun parsed => ?_
    obtain ⟨program, parser⟩ := parsed
    exact runParsed_constructs level _ program parser.error

theorem builtinDot_constructs (args : List Str) : Constructs (builtinDot self args) := by
  unfold builtinDot
  split
  · refine .leafBind fun path => ?_
    cases path with
    | none => exact .leaf _
    | some path =>
        refine .leafBind fun opened => ?_
        cases opened with
        | error errno => exact .leafBind fun _ => .leaf _
        | ok fd =>
            refine .leafBind fun parsed => ?_
            obtain ⟨program, error⟩ := parsed
            exact .bind (runParsed_constructs level _ program error) fun _ => .leafBind fun _ => .pure _
  · exact .leaf _

theorem builtinCommand_constructs (args : List Str) : Constructs (builtinCommand self args) := by
  refine .leafBind fun options => ?_
  cases options with
  | error status => exact .pure _
  | ok options =>
      refine .leafBind fun operands => ?_
      cases operands with
      | nil => exact .leaf _
      | cons name rest =>
          refine .ite (.ite (.leaf _) (.leaf _)) (.ite ?_ (.leaf _))
          exact .leafBind fun operands => level.mrshRunBuiltin operands

theorem mrshRunBuiltin_constructs (args : List Str) : Constructs (mrshRunBuiltin self args) := by
  cases args with
  | nil => exact .leaf _
  | cons name rest =>
      rw [mrshRunBuiltin]
      split
      · exact .pure _
      · rename_i builtin _
        cases builtin.func with
        | dot => exact builtinDot_constructs level _
        | «break» => exact builtinBreak_constructs _
        | command => exact builtinCommand_constructs level _
        | eval => exact builtinEval_constructs level _
        | exit => exact builtinExit_constructs _
        | «return» => exact builtinReturn_constructs _
        | _ => exact .leaf _

/-! ## Programs and traps -/

theorem runPendingTrap_constructs (lastStatus : Int) (index fuel : Nat) :
    Constructs (runPendingTrap self.mrshRunProgram lastStatus index fuel) := by
  induction fuel with
  | zero => exact .leaf _
  | succ fuel ih =>
      refine .leafBind fun _ => .leafBind fun count => .leafBind fun trap => .ite (.pure _) ?_
      cases if trap.set && trap.action == .catch then trap.program else none with
      | none => exact .pure true
      | some program =>
          have runs : Constructs (runAction (self.mrshRunProgram program.program)) :=
            .bind (.control rfl) fun _ => .bind (level.mrshRunProgram _) fun _ => .bind (.control rfl) fun _ => .pure _
          refine .leafBind fun _ => .leafBind fun _ => .bind runs fun ret => .ite (.pure _) ?_
          exact .leafBind fun _ => .leafBind fun _ => .leafBind fun _ => ih

theorem runPendingTraps_constructs (fuel : Nat) : Constructs (runPendingTraps fuel self.mrshRunProgram) := by
  have loops : ∀ lastStatus indices,
      Constructs (runPendingTrapsLoop self.mrshRunProgram lastStatus fuel indices) := by
    intro lastStatus indices
    induction indices with
    | nil => exact .leafBind fun _ => .pure _
    | cons index indices ih =>
        exact .bind (runPendingTrap_constructs level lastStatus index fuel) fun _ =>
          .ite (.leafBind fun _ => ih) (.pure _)
  exact .leafBind fun _ => .ite (.pure _) (.leafBind fun _ => .leafBind fun lastStatus => loops lastStatus _)

theorem runProgram_constructs (prog : Program) : Constructs (runProgram self prog) := by
  refine .bind (runCommandListArray_constructs level .initial prog.body) fun ret => ?_
  exact .bind (runPendingTraps_constructs level self.fuel) fun _ => .ite (.bind (.record _) fun _ => .pure _) (.pure _)

omit level in
theorem tasksConstruct (fuel : Nat) : TasksConstruct (tasks fuel : Tasks World) := by
  induction fuel with
  | zero => exact ⟨fun _ _ => .leaf _, fun _ _ => .leaf _, fun _ => .leaf _, fun _ => .leaf _⟩
  | succ fuel ih =>
      exact ⟨runWord_constructs ih, runCommand_constructs ih, runProgram_constructs ih, mrshRunBuiltin_constructs ih⟩

end

end Mrsh
