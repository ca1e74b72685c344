import Mrsh.Builtin.Control
import Mrsh.Shell.Task.Task
import Mrsh.Shell.UncheckedWrites

namespace Mrsh

open Mrsh.Data

/-! # The programs of the shell that heed READONLY

Each function of the shell that the interpreter calls either writes no variable, or tests it before, or
is one of the unchecked writers with other functions around it.
-/

section

variable {World α β : Type}

/-- The program heeds READONLY where the interpreter runs it. -/
class Heeding (prog : Leaf World α) : Prop where
  heeds : HeedsReadonly (leaf prog : Exec World α)

namespace Heeding

theorem act {action : LeafAction World} {next : (leafSignature World).Reply action → Leaf World α}
    (tested : ∀ state, SparesReadonly (.inl action) state)
    (heeding : ∀ reply, Heeding (next reply)) : Heeding (.act action next) := by
  refine ⟨fun before given step member => ?_⟩
  rcases List.mem_cons.mp member with rfl | member
  · exact tested before
  · exact (heeding _).heeds _ (fun writer names state unchecked arrives => given writer names state unchecked
      (.later arrives)) step member

theorem spares {prog : Leaf World α} (spares : SparesVariables prog) : Heeding prog := by
  induction prog with
  | pure value => exact ⟨.pure value⟩
  | stop reason => exact ⟨.stop reason⟩
  | act action next ih =>
      refine .act (fun state => ?_) fun reply => ih reply (spares.2 reply)
      cases action with
      | write writer key var => exact spares.1.elim
      | _ => trivial

theorem bind {first : Leaf World α} {next : α → Leaf World β} [firstHeeds : Heeding first]
    (nextHeeds : ∀ value, Heeding (next value)) : Heeding (first >>= next) := by
  constructor
  rw [leaf_bind]
  exact .bind firstHeeds.heeds fun value => (nextHeeds value).heeds

end Heeding

/-! ## What programs are made of -/

instance (value : α) : Heeding (pure value : Leaf World α) := ⟨.pure value⟩

instance (reason : Ending) : Heeding (.stop reason : Leaf World α) := ⟨.stop reason⟩

instance : Heeding (outOfFuel : Leaf World α) := ⟨.stop _⟩

instance : Heeding (abort : Leaf World α) := ⟨.stop _⟩

instance (status : Int) : Heeding (exitProcess status : Leaf World α) := ⟨.stop _⟩

instance (read : Shell World → α) : Heeding (gets read) := .spares (.gets read)

instance (change : Core World → Core World) : Heeding (update change) := .spares (.update change)

instance (request : World → α × World) : Heeding (call request) := .spares (.call request)

instance (value : Option α) : Heeding (orCrash value : Leaf World α) := .spares (.orCrash value)

instance (condition : Bool) : Heeding (assertThat condition : Leaf World Unit) := .spares (.assertThat condition)

instance (key value : Str) (attribs : Attribs) : Heeding (envSetChecked key value attribs : Leaf World Bool) :=
  .act (fun _ => trivial) fun _ => ⟨.pure _⟩

instance (key : Str) : Heeding (envUnsetChecked key : Leaf World Bool) := .act (fun _ => trivial) fun _ => ⟨.pure _⟩

instance (status : Nat) : Heeding (setExit status : Leaf World Unit) := .act (fun _ => trivial) fun _ => ⟨.pure _⟩

instance {first : Leaf World α} {next : α → Leaf World β} [Heeding first] [heeding : ∀ value, Heeding (next value)] :
    Heeding (first >>= next) := .bind heeding

/-! The cases of a reply are looked at one by one. -/

instance {ε : Type} {first : Leaf World (Except ε α)} {next : Except ε α → Leaf World β} [Heeding first]
    [fails : ∀ reason, Heeding (next (.error reason))] [succeeds : ∀ value, Heeding (next (.ok value))] :
    Heeding (first >>= next) := .bind fun
  | .error reason => fails reason
  | .ok value => succeeds value

instance {first : Leaf World (Option α)} {next : Option α → Leaf World β} [Heeding first]
    [missing : Heeding (next none)]
    [found : ∀ value, Heeding (next (some value))] : Heeding (first >>= next) := .bind fun
  | none => missing
  | some value => found value

instance {first : Leaf World (List α)} {next : List α → Leaf World β} [Heeding first] [empty : Heeding (next [])]
    [more : ∀ value values, Heeding (next (value :: values))] : Heeding (first >>= next) := .bind fun
  | [] => empty
  | value :: values => more value values

instance {condition : Prop} [Decidable condition] {yes no : Leaf World α} [Heeding yes] [Heeding no] :
    Heeding (if condition then yes else no) := by
  split <;> assumption

instance (change : α → β) (prog : Leaf World α) [Heeding prog] : Heeding (change <$> prog) := by
  rw [map_eq_pure_bind]
  infer_instance

theorem Heeding.mapM {prog : α → Leaf World β} [∀ value, Heeding (prog value)] (values : List α) :
    Heeding (values.mapM prog) := by
  induction values with
  | nil => rw [List.mapM_nil]; infer_instance
  | cons value values ih => rw [List.mapM_cons]; infer_instance

/-! ## State and jobs -/

variable (args operands : List Str) (fuel serial : Nat) (serials : List Nat) (name text path : Str) (fd pid : Int)
  (errno : Errno) (defaultPath : Bool)

instance (key : Str) : Heeding (mrshEnvGet key : Leaf World _) := by unfold mrshEnvGet; infer_instance

instance (key : Str) : Heeding (envValue key : Leaf World _) := by unfold envValue; infer_instance

instance (argv : List ArgSlot) (i : Int) : Heeding (slotAt argv i : Leaf World _) :=
  .spares (slotAt_talks argv i).spares

instance (i : Int) : Heeding (frameArg i : Leaf World _) := by unfold frameArg; infer_instance

instance (option : ShellOption) : Heeding (optionSet option : Leaf World _) := by unfold optionSet; infer_instance

instance (option : ShellOption) (value : Bool) : Heeding (setOption option value : Leaf World _) := by
  unfold setOption; infer_instance

instance (status : Int) : Heeding (setLastStatus status : Leaf World _) := by unfold setLastStatus; infer_instance

instance (name value : Str) : Heeding (setenv name value : Leaf World _) := by unfold setenv; infer_instance

instance : Heeding (newSerial : Leaf World Nat) := by unfold newSerial; infer_instance

instance : Heeding (processCreate pid : Leaf World _) := by unfold processCreate; infer_instance

instance : Heeding (findProcess serial : Leaf World _) := by unfold findProcess; infer_instance

instance : Heeding (processDestroy serial : Leaf World _) := by unfold processDestroy; infer_instance

instance (change : Process → Process) : Heeding (modifyProcess serial change : Leaf World _) := by
  unfold modifyProcess; infer_instance

instance (stat : Nat) : Heeding (updateProcess pid stat : Leaf World Unit) := by
  unfold updateProcess
  refine .bind fun processes => ?_
  split <;> infer_instance

instance : Heeding (findJob serial : Leaf World _) := by unfold findJob; infer_instance

instance (change : Job → Job) : Heeding (modifyJob serial change : Leaf World _) := by
  unfold modifyJob; infer_instance

instance (node : JobNode) : Heeding (jobCreate node : Leaf World _) := by unfold jobCreate; infer_instance

instance (job : Job) : Heeding (jobProcesses job : Leaf World _) := .mapM _

instance : Heeding (jobPoll serial : Leaf World _) := by unfold jobPoll; infer_instance

instance : Heeding (jobQueueNotification serial : Leaf World _) := by
  unfold jobQueueNotification; infer_instance

instance (foregroundJob : Option Nat) : Heeding (setForegroundJob foregroundJob : Leaf World _) := by
  unfold setForegroundJob; infer_instance

instance (job : Job) : Heeding (jobGetRunningProcess job : Leaf World _) := by
  unfold jobGetRunningProcess; infer_instance

instance (status : Int) : Heeding (jobsWithStatus status serials : Leaf World _) := by
  induction serials <;> (unfold jobsWithStatus; infer_instance)

instance (matches_ : Str → Bool) (jobs : List Job) : Heeding (jobByText matches_ jobs : Leaf World _) := by
  induction jobs <;> (unfold jobByText; infer_instance)

instance (r : Bool) : Heeding (jobStateStr serial r : Leaf World Str) := by
  unfold jobStateStr
  refine .bind fun status => .bind fun job => .bind fun procs => ?_
  cases procs.head? <;> infer_instance

variable [System World]

instance : Heeding (printf text : Leaf World _) := by unfold printf; infer_instance

instance : Heeding (eprintf text : Leaf World _) := by unfold eprintf; infer_instance

instance : Heeding (strerror errno : Leaf World _) := by unfold strerror; infer_instance

instance : Heeding (perror text errno : Leaf World _) := by unfold perror; infer_instance

instance : Heeding (perrorFalse text errno : Leaf World _) := by
  unfold perrorFalse; infer_instance

instance (serial proc : Nat) : Heeding (jobAddProcess serial proc : Leaf World _) := by
  unfold jobAddProcess; infer_instance

instance (job : Job) (cont : Bool) : Heeding (jobToForeground job cont : Leaf World _) := by
  unfold jobToForeground; infer_instance

instance (job : Job) : Heeding (jobToBackground job : Leaf World _) := by unfold jobToBackground; infer_instance

instance (foreground cont : Bool) :
    Heeding (jobSetForeground serial foreground cont : Leaf World Bool) := by
  unfold jobSetForeground
  refine .bind fun job => .bind fun _ => .bind fun jobControl => ?_
  split
  · refine .bind fun status => ?_
    dsimp only
    split <;> (refine .bind fun _ => ?_; infer_instance)
  · infer_instance

instance : Heeding (destroyProcesses serials : Leaf World _) := by
  induction serials <;> (unfold destroyProcesses; infer_instance)

instance : Heeding (jobDestroy serial : Leaf World _) := by unfold jobDestroy; infer_instance

/-! ## Traps and job control -/

omit [System World] in
instance (index : Nat) (trap : Trap) : Heeding (replaceTrap index trap : Leaf World Unit) := by
  unfold replaceTrap setTrapEntry
  refine .bind fun old => ?_
  cases old.program <;> (unfold destroyTrapProgram; infer_instance)

omit [System World] in
instance (index : Nat) (count : Int) : Heeding (setPending index count : Leaf World _) := by
  unfold setPending; infer_instance

omit [System World] in
instance (inTrap : Bool) : Heeding (setInTrap inTrap : Leaf World _) := by unfold setInTrap; infer_instance

instance : Heeding (handleSignals : Leaf World _) := by unfold handleSignals; infer_instance

instance (sig : Nat) : Heeding (mayTrap sig : Leaf World Bool) := by
  unfold mayTrap
  refine .bind fun trap => .bind fun interactive => ?_
  split
  · refine .bind fun handler => ?_
    split <;> infer_instance
  · infer_instance

omit [System World] in
instance (sig : Nat) (action : TrapAction) : Heeding (installedAction sig action : Leaf World _) := by
  unfold installedAction; infer_instance

instance (sig : Nat) (action : TrapAction) (program : Option TrapProgram) :
    Heeding (setTrap sig action program : Leaf World _) := by
  unfold setTrap; infer_instance

instance (enabled : Bool) (sigs : List (Nat × Nat)) : Heeding (setJobControlTrapsLoop enabled sigs : Leaf World _) := by
  induction sigs <;> (unfold setJobControlTrapsLoop; infer_instance)

instance (enabled : Bool) : Heeding (setJobControlTraps enabled : Leaf World _) := by
  unfold setJobControlTraps; infer_instance

instance (sigs : List Nat) : Heeding (resetCaughtTrapsLoop sigs : Leaf World _) := by
  induction sigs <;> (unfold resetCaughtTrapsLoop; infer_instance)

instance : Heeding (resetCaughtTraps : Leaf World _) := by unfold resetCaughtTraps; infer_instance

instance : Heeding (waitForForeground fuel : Leaf World _) := by
  induction fuel <;> (unfold waitForForeground; infer_instance)

instance (pgid : Int) : Heeding (grabTerminal pgid : Leaf World _) := by unfold grabTerminal; infer_instance

instance : Heeding (enableJobControl fuel : Leaf World Bool) := by
  unfold enableJobControl
  exact .bind fun _ => .bind fun _ => .bind fun pgid => inferInstance

instance (enabled : Bool) : Heeding (mrshSetJobControl fuel enabled : Leaf World _) := by
  unfold mrshSetJobControl; infer_instance

instance : Heeding (initJobChildProcess fuel : Leaf World _) := by
  unfold initJobChildProcess; infer_instance

/-! ## Waiting for jobs and finding them -/

instance : Heeding (updateJobs serials : Leaf World _) := by
  induction serials <;> (unfold updateJobs; infer_instance)

instance (stat : Nat) : Heeding (updateJob pid stat : Leaf World _) := by unfold updateJob; infer_instance

instance (nohang untraced : Bool) :
    Heeding (waitpidLoop pid nohang untraced fuel : Leaf World Bool) := by
  induction fuel with
  | zero => unfold waitpidLoop; infer_instance
  | succ fuel ih =>
      unfold waitpidLoop
      refine .bind fun waited => ?_
      split <;> infer_instance

instance (nohang : Bool) : Heeding (jobWaitPid fuel pid nohang : Leaf World _) := by
  unfold jobWaitPid; infer_instance

instance : Heeding (jobWait serial fuel : Leaf World _) := by
  induction fuel <;> (unfold jobWait; infer_instance)

instance : Heeding (jobWaitProcess serial fuel : Leaf World _) := by
  induction fuel <;> (unfold jobWaitProcess; infer_instance)

instance (interactive : Bool) (msg : Str) : Heeding (noJob interactive msg : Leaf World _) := by
  unfold noJob; infer_instance

instance (interactive : Bool) (index : Nat) (msg : Str) : Heeding (recentJob interactive index msg : Leaf World _) := by
  unfold recentJob
  refine .bind fun jobs => .bind fun stopped => ?_
  split
  · infer_instance
  · refine .bind fun running => ?_
    split <;> infer_instance

instance (id number : Str) (interactive : Bool) : Heeding (jobByNumber id number interactive : Leaf World _) := by
  unfold jobByNumber
  dsimp only
  split
  · infer_instance
  · refine .bind fun jobs => ?_
    split <;> infer_instance

instance (id : Str) (interactive : Bool) : Heeding (jobById id interactive : Leaf World _) := by
  unfold jobById
  split <;> infer_instance

/-! ## Paths and redirections -/

instance (file : Str) (exec : Bool) (dirs : List Str) : Heeding (firstAccessible file exec dirs : Leaf World _) := by
  induction dirs <;> (unfold firstAccessible; infer_instance)

instance (file : Str) (exec defaultPath : Bool) : Heeding (expandPath file exec defaultPath : Leaf World _) := by
  cases defaultPath <;> (unfold expandPath; infer_instance)

instance : Heeding (currentWorkingDir : Leaf World _) := by unfold currentWorkingDir; infer_instance

instance : Heeding (writeHereDocumentLine.writeAll fd text : Leaf World _) := by
  unfold writeHereDocumentLine.writeAll; infer_instance

instance (line : Word) (maxSize : Option Nat) :
    Heeding (writeHereDocumentLine fd line maxSize : Leaf World _) := by
  unfold writeHereDocumentLine; infer_instance

instance (maxSize : Option Nat) (lines : List Word) :
    Heeding (writeHereDocumentLines fd maxSize lines : Leaf World _) := by
  induction lines with
  | nil => unfold writeHereDocumentLines; infer_instance
  | cons line lines ih =>
      unfold writeHereDocumentLines
      refine .bind fun written => ?_
      split <;> infer_instance

instance (fds : Int × Int) : Heeding (closeBoth fds : Leaf World _) := by unfold closeBoth; infer_instance

instance (lines : List Word) : Heeding (createHereDocumentFd lines : Leaf World _) := by
  unfold createHereDocumentFd
  refine .bind fun piped => ?_
  split
  · infer_instance
  · refine .bind fun written => ?_
    split <;> infer_instance

instance (redir : IoRedirect) (filename : Str) : Heeding (openRedirect redir filename : Leaf World _) := by
  unfold openRedirect
  cases redir.op <;> infer_instance

instance (redir : IoRedirect) : Heeding (processRedir redir : Leaf World _) := by unfold processRedir; infer_instance

/-! ## Words -/

omit [System World] in
instance (parse : Parse α) : Heeding (parseText text parse : Leaf World _) := by
  unfold parseText
  refine .bind fun nextAddress => ?_
  split <;> infer_instance

omit [System World] in
instance (word : Word) : Heeding (copyWord word : Leaf World _) := by unfold copyWord; infer_instance

omit [System World] in
instance (word : Option Word) : Heeding (copyWordOrNull word : Leaf World Word) := by
  cases word <;> (unfold copyWordOrNull; infer_instance)

instance (word : Word) (assignment : Bool) : Heeding (expandTildeWord word assignment : Leaf World _) := by
  unfold expandTildeWord; infer_instance

instance (buf : Str) : Heeding (bufferReadFrom fd fuel buf : Leaf World _) := by
  induction fuel generalizing buf with
  | zero => unfold bufferReadFrom; infer_instance
  | succ fuel ih =>
      unfold bufferReadFrom
      refine .bind fun got => ?_
      split <;> infer_instance

omit [System World] in
instance (number : Int) : Heeding (positionalParameter number : Leaf World _) := by
  unfold positionalParameter; infer_instance

instance : Heeding (parameterGetValue name : Leaf World _) := by
  unfold parameterGetValue
  have process : Heeding (do
      let jobs ← gets (·.jobs)
      match lastJobProcess jobs with
      | some serial => do
          let process ← findProcess serial
          pure (some (decimal process.pid))
      | none => pure (some []) : Leaf World (Option Str)) := by
    refine .bind fun jobs => ?_
    cases lastJobProcess jobs <;> infer_instance
  infer_instance

omit [System World] in
instance (quoteArgs : Bool) : Heeding (expandPositionalParams quoteArgs : Leaf World Word) := by
  have arguments (indices : List Nat) : Heeding (frameArgs indices : Leaf World _) := .mapM _
  unfold expandPositionalParams
  infer_instance

omit [System World] in
instance (colon : Bool) (value : Option Word) : Heeding (isUnset colon value : Leaf World Bool) := by
  cases value <;> (unfold isUnset; infer_instance)

instance (parts : List Str) : Heeding (argv0Message parts : Leaf World Unit) :=
  .spares (argv0Message_talks parts).spares

omit [System World] in
instance (value : Option Str) (doubleQuoted : Bool) :
    Heeding (parameterWord name value doubleQuoted : Leaf World _) := by
  unfold parameterWord; infer_instance

instance (result : Option Word) : Heeding (parameterResult name result : Leaf World _) := by
  cases result <;> (unfold parameterResult; infer_instance)

omit [System World] in
theorem Unchecked.heeding {writer : Leaf World α} {names : List Str} (unchecked : Unchecked writer names) :
    Heeding writer := ⟨unchecked.heeds⟩

omit [System World] in
instance (name field : Str) : Heeding (mrshEnvSet .forClause name field .none : Leaf World Unit) :=
  (Unchecked.forClause name field).heeding

omit [System World] in
instance (name str : Str) : Heeding (mrshEnvSet .parameter name str .none : Leaf World Unit) :=
  (Unchecked.parameter name str).heeding

omit [System World] in
instance (result : Int) (attribs : Attribs) :
    Heeding (mrshEnvSet .arithmetic name (decimal result) attribs : Leaf World Unit) :=
  (Unchecked.arithmetic name result attribs).heeding

omit [System World] in
instance (left right : Int) (operation : Int → Int → Int) :
    Heeding (divideLong operation left right : Leaf World _) := by
  unfold divideLong; infer_instance

omit [System World] in
instance (left right : Int) (operation : Int → Nat → Int) :
    Heeding (shiftLong operation left right : Leaf World _) := by
  unfold shiftLong; infer_instance

instance (type : ArithmBinopType) (left right : Int) : Heeding (runArithmBinopType type left right : Leaf World _) := by
  cases type <;> (unfold runArithmBinopType; infer_instance)

instance (expr : ArithmExpr) (result : Int) : Heeding (mrshRunArithmExpr expr result : Leaf World _) := by
  have reads (name : Str) : Heeding (runVariable name : Leaf World _) := .spares (runVariable_spares name)
  have assigns (op : ArithmAssignOp) (cur val : Int) : Heeding (runArithmAssignOp op cur val : Leaf World _) :=
    .spares (runArithmAssignOp_spares op cur val)
  induction expr generalizing result with
  | assign op name value ih => cases op <;> (unfold mrshRunArithmExpr; infer_instance)
  | _ => unfold mrshRunArithmExpr; infer_instance

instance (body : Word) : Heeding (runArithmetic fuel body : Leaf World _) := by
  unfold runArithmetic
  refine .bind fun bodyStr => .bind fun parsed => ?_
  obtain ⟨expr, parser⟩ := parsed
  cases expr with
  | none =>
      dsimp only
      cases parser.error <;> infer_instance
  | some expr => infer_instance

instance (field : Word) : Heeding (expandPathname field : Leaf World _) := by
  unfold expandPathname
  refine .bind fun pattern => ?_
  cases pattern with
  | none => infer_instance
  | some pattern =>
      refine .bind fun _ => .bind fun globbed => ?_
      cases globbed <;> infer_instance

instance (fields : List Word) : Heeding (expandPathnames fields : Leaf World _) := by
  induction fields <;> (unfold expandPathnames; infer_instance)

/-! ## Children and tasks -/

instance (ctx : Context) (async : Bool) : Heeding (initChild ctx pid async : Leaf World _) := by
  unfold initChild; infer_instance

instance : Heeding (leaveJobControl fuel : Leaf World _) := by unfold leaveJobControl; infer_instance

instance (argv : List Str) : Heeding (execv path argv : Leaf World _) := by unfold execv; infer_instance

instance (assigns : List Assignment) : Heeding (setAssignments assigns : Leaf World _) := by
  induction assigns <;> (unfold setAssignments; infer_instance)

instance (redirs : List IoRedirect) : Heeding (redirectProcess redirs : Leaf World Unit) := by
  induction redirs with
  | nil => unfold redirectProcess; infer_instance
  | cons redir redirs ih =>
      unfold redirectProcess
      refine .bind fun opened => ?_
      split <;> infer_instance

instance (ctx : Context) (sc : SimpleCommand) (argv : List Str) :
    Heeding (runProcess fuel ctx sc argv : Leaf World Int) := by
  have child (path : Str) : Heeding (runProcessChild fuel ctx sc path argv : Leaf World Int) := by
    unfold runProcessChild populateEnvAll
    exact .bind fun pid => .bind fun _ => .bind fun _ => .bind fun _ => .bind fun _ => inferInstance
  unfold runProcess
  infer_instance

instance : Heeding (dupFailed errno : Leaf World _) := by unfold dupFailed; infer_instance

instance (fd redirFd : Int) : Heeding (dupAndSaveFd fd redirFd : Leaf World _) := by
  unfold dupAndSaveFd; infer_instance

instance (redirs : List IoRedirect) : Heeding (redirectBuiltin redirs : Leaf World _) := by
  induction redirs with
  | nil => unfold redirectBuiltin; infer_instance
  | cons redir redirs ih =>
      unfold redirectBuiltin
      refine .bind fun opened => ?_
      split <;> infer_instance

instance (fds : List SavedFd) : Heeding (restoreFds fds : Leaf World _) := by
  induction fds <;> (unfold restoreFds; infer_instance)

instance (assigns : List Assignment) : Heeding (runAssignments assigns : Leaf World _) := by
  induction assigns <;> (unfold runAssignments; infer_instance)

omit [System World] in
instance (ctx : Context) (node : JobNode) : Heeding (withJob ctx node : Leaf World Context) := by
  unfold withJob
  split <;> infer_instance

instance (fd target : Int) : Heeding (moveFd fd target name : Leaf World _) := by
  unfold moveFd; infer_instance

instance (fd : Option Int) (target : Int) : Heeding (moveOptionalFd fd target name : Leaf World Bool) := by
  cases fd <;> (unfold moveOptionalFd; infer_instance)

instance (ctx : Context) (fds : PipelineFds) :
    Heeding (preparePipelineChild fuel ctx fds : Leaf World Bool) := by
  unfold preparePipelineChild
  refine .bind fun _ => .bind fun pid => .bind fun _ => .bind fun _ => ?_
  split <;> infer_instance

instance (fd : Option Int) : Heeding (closeFd fd : Leaf World Unit) := by
  cases fd <;> (unfold closeFd; infer_instance)

instance (last : Bool) : Heeding (nextPipe last : Leaf World _) := by unfold nextPipe; infer_instance

instance (procs : List Nat) (ret : Int) : Heeding (waitProcesses fuel procs ret : Leaf World Int) := by
  induction procs generalizing ret <;> (unfold waitProcesses; infer_instance)

instance : Heeding (redirectStdin : Leaf World _) := by unfold redirectStdin; infer_instance

instance (pattern : Word) (wordStr : Str) : Heeding (matchPattern pattern wordStr : Leaf World _) := by
  unfold matchPattern; infer_instance

omit [System World] in
instance (fnd : FunctionDefinition) : Heeding (runFunctionDefinition fnd : Leaf World _) := by
  unfold runFunctionDefinition; infer_instance

/-! ## Options and messages of builtins -/

instance (argc : Int) (argv : List ArgSlot) (optstring : Str) :
    Heeding (mrshGetopt argc argv optstring : Leaf World _) := .spares (mrshGetopt_talks argc argv optstring).spares

instance (optstring : Str) (value : β) (step : β → Char → Leaf World (Except Int β))
    [∀ value opt, Heeding (step value opt)] : Heeding (forOptions args optstring value step) := by
  have loop (fuel : Nat) (value : β) : Heeding (optionLoop args optstring step fuel value) := by
    induction fuel generalizing value <;> (unfold optionLoop; infer_instance)
  unfold forOptions resetOptind setGetopt
  infer_instance

instance (text usage : Str) : Heeding (unknownOption text usage : Leaf World (Except Int β)) :=
  .spares (unknownOption_talks text usage).spares

instance (name usage : Str) : Heeding (noOptions args name usage : Leaf World _) := by
  unfold noOptions; infer_instance

omit [System World] in
instance : Heeding (operandsOf args : Leaf World _) := .spares (operandsOf_spares args)

instance (usage : Str) : Heeding (usageError usage : Leaf World Int) := .spares (usageError_talks usage).spares

instance (parts : List Str) : Heeding (failWith parts : Leaf World Int) := .spares (failWith_talks parts).spares

instance (value : Str) : Heeding (printEscaped value : Leaf World _) := by unfold printEscaped; infer_instance

/-! ## Builtins for aliases, commands, limits and traps -/

instance : Heeding (builtinColon : Leaf World _) := by unfold builtinColon; infer_instance

instance : Heeding (builtinTrue : Leaf World _) := by unfold builtinTrue; infer_instance

instance : Heeding (builtinFalse : Leaf World _) := by unfold builtinFalse; infer_instance

instance : Heeding (builtinUnspecified args : Leaf World _) := by
  unfold builtinUnspecified; infer_instance

instance (name value : Str) : Heeding (printAlias name value : Leaf World _) := by unfold printAlias; infer_instance

instance (aliases : List (Str × Str)) : Heeding (printAliases aliases : Leaf World _) := by
  induction aliases <;> (unfold printAliases; infer_instance)

instance (argv0 : Str) : Heeding (aliasOperands argv0 operands : Leaf World _) := by
  induction operands <;> (unfold aliasOperands; infer_instance)

instance : Heeding (builtinAlias args : Leaf World _) := by unfold builtinAlias; infer_instance

omit [System World] in
instance (names : List Str) : Heeding (deleteAliases names : Leaf World _) := by unfold deleteAliases; infer_instance

instance : Heeding (builtinUnalias args : Leaf World _) := by unfold builtinUnalias; infer_instance

instance (utilities : List Str) : Heeding (hashUtilities utilities : Leaf World _) := by
  induction utilities <;> (unfold hashUtilities; infer_instance)

instance : Heeding (builtinHash args : Leaf World _) := by unfold builtinHash; infer_instance

instance : Heeding (typeOf name : Leaf World _) := by unfold typeOf; infer_instance

instance (names : List Str) (error : Bool) : Heeding (typeNames names error : Leaf World Int) := by
  induction names generalizing error <;> (unfold typeNames; infer_instance)

instance : Heeding (builtinType args : Leaf World _) := by unfold builtinType; infer_instance

instance : Heeding (builtinTimes args : Leaf World _) := by unfold builtinTimes; infer_instance

instance (arg : Str) : Heeding (setUlimit arg : Leaf World _) := by unfold setUlimit; infer_instance

instance : Heeding (printUlimit : Leaf World Int) := by
  unfold printUlimit
  refine .bind fun limit => ?_
  split <;> infer_instance

instance : Heeding (builtinUlimit args : Leaf World Int) := by
  have operand (operands : List Str) : Heeding (match operands with
      | [arg] => setUlimit arg
      | [] => printUlimit
      | _ => usageError ulimitUsage : Leaf World Int) := by
    split <;> infer_instance
  unfold builtinUlimit
  infer_instance

instance : Heeding (umaskCurrentMask : Leaf World _) := by unfold umaskCurrentMask; infer_instance

instance : Heeding (builtinUmask args : Leaf World Int) := by
  have symbolic (mask : Nat) (mode : Str) : Heeding (match umaskMode mask mode with
      | .error msg => do
          eprintf msg
          usageError umaskUsage
      | .ok mask => do
          let _ ← call (System.umask mask)
          pure 0 : Leaf World Int) := by
    split <;> infer_instance
  unfold builtinUmask
  infer_instance

instance (str : Str) : Heeding (parseSig str : Leaf World _) := by
  unfold parseSig
  split <;> infer_instance

instance (sig : Nat) (trap : Trap) : Heeding (printTrap sig trap : Leaf World Unit) := by
  unfold printTrap
  refine .bind fun _ => ?_
  split <;> infer_instance

instance (sigs : List Nat) : Heeding (printTraps sigs : Leaf World _) := by
  induction sigs <;> (unfold printTraps; infer_instance)

instance (actionStr : Str) : Heeding (parseAction fuel actionStr : Leaf World _) := by
  unfold parseAction
  split
  · infer_instance
  · split
    · infer_instance
    · refine .bind fun parsed => ?_
      obtain ⟨program, parser⟩ := parsed
      dsimp only
      cases parser.error <;> infer_instance

instance (action : TrapAction) (program : Option TrapProgram) (conditions : List Str) :
    Heeding (setTraps action program conditions : Leaf World Int) := by
  induction conditions <;> (unfold setTraps; infer_instance)

instance : Heeding (builtinTrap fuel args : Leaf World Int) := by
  unfold builtinTrap
  infer_instance

/-! ## Builtins for jobs -/

instance (ids : List Str) : Heeding (bgJobs ids : Leaf World _) := by
  induction ids <;> (unfold bgJobs; infer_instance)

instance : Heeding (builtinBg args : Leaf World _) := by unfold builtinBg; infer_instance

instance (id : Str) : Heeding (fgJob fuel id : Leaf World _) := by unfold fgJob; infer_instance

instance : Heeding (builtinFg fuel args : Leaf World Int) := by
  have operand (operands : List Str) : Heeding (match operands with
      | [] => fgJob fuel "%%".toList
      | [id] => fgJob fuel id
      | _ => usageError fgUsage : Leaf World Int) := by
    split <;> infer_instance
  unfold builtinFg
  infer_instance

instance (procs : List Process) : Heeding (printPids procs : Leaf World _) := by
  induction procs <;> (unfold printPids; infer_instance)

instance (ctx : JobsContext) : Heeding (listJob ctx serial : Leaf World _) := by
  unfold listJob; infer_instance

instance (ctx : JobsContext) : Heeding (listJobs ctx serials : Leaf World _) := by
  induction serials <;> (unfold listJobs; infer_instance)

instance (ctx : JobsContext) (ids : List Str) : Heeding (listJobIds ctx ids : Leaf World _) := by
  induction ids <;> (unfold listJobIds; infer_instance)

instance (other format chosen : JobsFormat) : Heeding (chooseFormat other format chosen : Leaf World _) := by
  unfold chooseFormat; infer_instance

instance : Heeding (builtinJobs args : Leaf World _) := by unfold builtinJobs; infer_instance

instance (arg : Str) : Heeding (waitHandle arg : Leaf World _) := by
  have known (pid : Int) (processes : List Process) : Heeding (match processes.find? (·.pid == pid) with
      | none => pure (some ⟨pid, 127⟩)
      | some process => pure (some ⟨pid, if process.terminated then process.stat else -1⟩) :
      Leaf World (Option WaitHandle)) := by
    split <;> infer_instance
  unfold waitHandle
  infer_instance

instance : Heeding (waitHandles args : Leaf World _) := by
  induction args <;> (unfold waitHandles; infer_instance)

instance (handles : List WaitHandle) (last : Int) : Heeding (waitForHandles handles last : Leaf World _) := by
  induction handles generalizing last with
  | nil => unfold waitForHandles; infer_instance
  | cons handle handles ih =>
      unfold waitForHandles
      refine .bind fun waited => ?_
      split <;> infer_instance

instance : Heeding (builtinWait args : Leaf World Int) := by
  unfold builtinWait
  split <;> infer_instance

/-! ## Builtins for variables and parameters -/

instance (line : Str) (vars : List (Str × Str)) : Heeding (printVars line vars : Leaf World _) := by
  induction vars <;> (unfold printVars; infer_instance)

omit [System World] in
instance (selected : Attribs → Bool) : Heeding (collectVars selected : Leaf World _) := by
  unfold collectVars; infer_instance

instance (argv0 : Str) (attrib : Attribs) : Heeding (exportVars argv0 attrib args : Leaf World _) := by
  induction args <;> (unfold exportVars; infer_instance)

instance : Heeding (builtinExport args : Leaf World Int) := by
  unfold builtinExport
  dsimp only
  split <;> infer_instance

instance : Heeding (unsetVar name : Leaf World _) := by unfold unsetVar; infer_instance

instance (funcs : Bool) (names : List Str) : Heeding (unsetNames funcs names : Leaf World _) := by
  induction names <;> (unfold unsetNames; infer_instance)

instance : Heeding (builtinUnset args : Leaf World _) := by unfold builtinUnset; infer_instance

instance (raw : Bool) (escaped : Bool) (buf : Str) :
    Heeding (readLineChars raw fuel escaped buf : Leaf World _) := .spares (readLineChars_spares raw fuel escaped buf)

omit [System World] in
instance (names fields : List Str) : Heeding (assignFields names fields : Leaf World Unit) :=
  (Unchecked.read names fields).heeding

instance : Heeding (builtinRead fuel args : Leaf World _) := by
  unfold builtinRead; infer_instance

instance : Heeding (readOptind : Leaf World _) := .spares readOptind_spares

omit [System World] in
instance (change : Getopt → Getopt) : Heeding (setGetopt change : Leaf World Unit) :=
    by unfold setGetopt; infer_instance

omit [System World] in
theorem Unchecked.followed {writer : Leaf World α} {names : List Str} (unchecked : Unchecked writer names)
    {next : α → Leaf World β} (heeding : ∀ value, Heeding (next value)) : Heeding (writer >>= next) :=
  @Heeding.bind _ _ _ _ _ unchecked.heeding heeding

instance (optc : Int) (optv : List ArgSlot) (optstring name : Str) :
    Heeding (getoptsWith optc optv optstring name : Leaf World Int) := by
  refine .bind fun _ => .bind fun opt => .bind fun optind => ?_
  have writes := (@Unchecked.getopts World optind optstring name opt).followed
    fun _ => (inferInstance : Heeding (pure (if opt.isNone then 1 else 0 : Int)))
  simpa only [getoptsWrites, bind_assoc] using writes

omit [System World] in
instance (optind : Int) : Heeding (getoptsWithoutName optind : Leaf World Int) := by
  refine .bind fun _ => ?_
  have writes := (@Unchecked.getoptsWithoutName World optind).followed
    fun _ => (inferInstance : Heeding (abort : Leaf World Int))
  simpa only [bind_assoc] using writes

instance : Heeding (builtinGetopts args : Leaf World Int) := by
  have operand (optind : Int) (operands : List Str) : Heeding (match operands with
      | [optstring, name] => do
          let optc ← gets (·.argc)
          let optv ← gets (·.argv)
          getoptsWith optc optv optstring name
      | _ => getoptsWithoutName optind : Leaf World Int) := by
    split <;> infer_instance
  unfold builtinGetopts
  exact .bind fun options => by cases options <;> infer_instance

instance : Heeding (cd path : Leaf World Int) := by
  have writes (oldPwd cwd : Str) : Heeding (do
      mrshEnvSet .cd "OLDPWD".toList oldPwd .none
      mrshEnvSet .cd "PWD".toList cwd .exportOnly
      pure 0 : Leaf World Int) := by
    simpa only [bind_assoc] using (Unchecked.cd oldPwd cwd).followed fun _ => inferInstance
  unfold cd
  infer_instance

instance : Heeding (cdOld : Leaf World Int) := by
  have writes (oldpwd pwd : Str) : Heeding (do
      mrshEnvSet .cd "PWD".toList oldpwd .exportOnly
      mrshEnvSet .cd "OLDPWD".toList pwd .none
      pure 0 : Leaf World Int) := by
    simpa only [bind_assoc] using (Unchecked.cdOld oldpwd pwd).followed fun _ => inferInstance
  unfold cdOld
  refine .bind fun oldpwd => .bind fun pwd => ?_
  split <;> infer_instance

instance : Heeding (isdir path : Leaf World _) := by unfold isdir; infer_instance

instance (curpath : Str) (rest : Str) : Heeding (cdpathSearch curpath fuel rest : Leaf World _) := by
  induction fuel generalizing rest <;> (unfold cdpathSearch; infer_instance)

instance (curpath : Str) : Heeding (cdTo curpath : Leaf World _) := by unfold cdTo; infer_instance

instance : Heeding (builtinCd args : Leaf World _) := by unfold builtinCd; infer_instance

instance : Heeding (builtinPwd args : Leaf World _) := by unfold builtinPwd; infer_instance

instance (options : List (Str × ShellOption)) : Heeding (printOptions options : Leaf World _) := by
  induction options <;> (unfold printOptions; infer_instance)

instance (value : Bool) (opts : Str) (monitor : Bool) :
    Heeding (setShortOptions value opts monitor : Leaf World _) := by
  induction opts generalizing monitor with
  | nil => unfold setShortOptions; infer_instance
  | cons opt opts ih =>
      unfold setShortOptions
      cases findOption opt <;> infer_instance

instance (monitor : Bool) : Heeding (setOptions args monitor : Leaf World _) := by
  fun_induction (setOptions args monitor : Leaf World (Option (SetArgs × Bool))) with
  | case6 => exact .bind fun _ => by assumption
  | case8 => exact .bind fun set => by cases set <;> infer_instance
  | _ => infer_instance

omit [System World] in
instance (argv : List ArgSlot) (i : Int) : Heeding (argvStr argv i : Leaf World _) := by
  unfold argvStr; infer_instance

instance : Heeding (setPositional args : Leaf World _) := by unfold setPositional; infer_instance

instance : Heeding (setWith args : Leaf World _) := by
  unfold setWith
  split
  · infer_instance
  · refine .bind fun parsed => ?_
    split <;> infer_instance

instance : Heeding (builtinSet fuel args : Leaf World _) := by
  unfold builtinSet; infer_instance

instance (msg : Str) : Heeding (shiftError msg : Leaf World _) := by unfold shiftError; infer_instance

instance (n : Int) : Heeding (shiftBy n : Leaf World _) := by unfold shiftBy; infer_instance

instance : Heeding (builtinShift args : Leaf World Int) := by
  unfold builtinShift
  split <;> infer_instance

/-! ## Builtins that run commands -/

instance (parts : List Str) : Heeding (dotError parts : Leaf World _) := by unfold dotError; infer_instance

instance (buf : Str) : Heeding (readFile fd fuel buf : Leaf World _) := by
  induction fuel generalizing buf with
  | zero => unfold readFile; infer_instance
  | succ fuel ih =>
      unfold readFile
      refine .bind fun got => ?_
      split <;> infer_instance

instance : Heeding (parseFile fuel fd : Leaf World _) := by unfold parseFile; infer_instance

instance (argv : List Str) : Heeding (execCommand name argv : Leaf World _) := by
  unfold execCommand; infer_instance

instance : Heeding (builtinExec args : Leaf World _) := by unfold builtinExec; infer_instance

instance : Heeding (verifyLine name defaultPath : Leaf World _) := by
  unfold verifyLine; infer_instance

instance : Heeding (verifyCommand name defaultPath : Leaf World _) := by
  unfold verifyCommand; infer_instance

instance (argv : List Str) :
    Heeding (commandProcess fuel argv defaultPath : Leaf World Int) := by
  have child (path : Str) : Heeding (commandChild path argv : Leaf World Int) := by unfold commandChild; infer_instance
  unfold commandProcess
  infer_instance

instance (options : CommandOptions) (opt : Char) : Heeding (commandOption options opt : Leaf World _) := by
  unfold commandOption; infer_instance

end

end Mrsh
