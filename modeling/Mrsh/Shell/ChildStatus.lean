import Mrsh.Shell.Waiting

namespace Mrsh

open Mrsh.Data

/-! # The status of a program that runs in a child

A subshell, an element of a pipeline, an asynchronous list and a command
substitution run a program in a child, and the parent gets its status. A child
that is interrupted by `exit` ends with 127 in the first three of them, unless a
loop has turned the interruption into status 0, and the last one only knows the
status that `exit` has set.
-/

section

variable {World : Type} [System World]

/-! ## The children -/

/-- How a program ends in a child: by `exit`, or with the status of its last command. -/
structure EndsWith (byExit : Bool) (status ret : Int) (ended : Shell World) : Prop where
  exit : ended.exit = if byExit then status else -1
  ret : byExit = false → ret = status
  range : 0 ≤ status ∧ status ≤ 255

variable {self : Tasks World} {ctx : Context} {child started ended : Shell World} {ret : Int}

/-- What the child of a subshell does before it runs its body. -/
def enterSubshell : Leaf World Unit := do
  update fun core => { core with child := true }
  let _ ← resetCaughtTraps
  redirectStdin

def enterAsync (fuel : Nat) (ctx : Context) : Leaf World Unit := do
  update fun core => { core with child := true }
  let pid ← call System.getpid
  let _ ← initChild ctx pid true
  leaveJobControl fuel
  redirectStdin

def moveOutput (fd : Int) : Leaf World Unit := do
  if fd != stdoutFileno then
    let _ ← call (System.dup2 fd stdoutFileno)
    call (System.close fd)

def leaveTraps (program : Program) : Leaf World Unit := do
  if !isPrintTraps program then
    let _ ← resetCaughtTraps

def enterWordCommand (fuel : Nat) (program : Program) (fds : Int × Int) : Leaf World Unit := do
  call (System.close fds.1)
  moveOutput fds.2
  initJobChildProcess fuel
  leaveTraps program

/-- What the child of a subshell does after its set-up. -/
def subshellCode (self : Tasks World) (ctx : Context) (body : List CommandList) : Exec World Int := do
  let ret ← runCommandListArray self ctx body
  let exit ← leaf (gets (·.exit))
  leaf (exitProcess (if ret < 0 then 127 else if 0 ≤ exit then exit else ret))

def asyncCode (self : Tasks World) (ctx : Context) (andOrList : AndOrList) : Exec World Int := do
  let ret ← runAndOrList (runPipeline self ctx) (record .orInterrupted) andOrList
  leaf (exitProcess (if ret < 0 then 127 else ret))

def pipelineCode (self : Tasks World) (ctx : Context) (cmd : Command) : Exec World Int := do
  let ret ← self.runCommand ctx cmd
  leaf (exitProcess (if ret < 0 then 127 else ret))

def wordCommandCode {α : Type} (self : Tasks World) (program : Program) : Exec World α := do
  let _ ← self.mrshRunProgram program
  let exit ← leaf (gets (·.exit))
  leaf (exitProcess (if 0 ≤ exit then exit else 0))

theorem runSubshellChild_starts {body : List CommandList} (entered : Leaf.run enterSubshell child = .done () started) :
    Exec.run (runSubshellChild self ctx body) child = Exec.run (subshellCode self ctx body) started := by
  obtain ⟨_, marked, first, entered⟩ := Leaf.run_bind_done.mp entered
  obtain ⟨_, reset, second, entered⟩ := Leaf.run_bind_done.mp entered
  unfold runSubshellChild
  rw [Exec.run_leaf_bind_of_done first, Exec.run_leaf_bind_of_done second, Exec.run_leaf_bind_of_done entered]
  rfl

theorem runSubshellChild_exits {body : List CommandList} (entered : Leaf.run enterSubshell child = .done () started)
    (run : Exec.run (runCommandListArray self ctx body) started = .done ret ended) :
    Exec.run (runSubshellChild self ctx body) child =
      .stopped (.exited (if ret < 0 then 127 else if 0 ≤ ended.exit then ended.exit else ret)) ended := by
  rw [runSubshellChild_starts entered, subshellCode]
  simp only [Exec.run_bind, Exec.run_leaf, run, Outcome.andThen_done, Leaf.run_gets, Leaf.run_exitProcess]

theorem runPipelineChild_starts {fds : PipelineFds} {cmd : Command}
    (entered : Leaf.run (preparePipelineChild self.fuel ctx fds) child = .done true started) :
    Exec.run (runPipelineChild self ctx fds cmd) child = Exec.run (pipelineCode self ctx cmd) started := by
  unfold runPipelineChild
  rw [Exec.run_leaf_bind_of_done entered, if_pos rfl]
  rfl

theorem runPipelineChild_exits {fds : PipelineFds} {cmd : Command}
    (entered : Leaf.run (preparePipelineChild self.fuel ctx fds) child = .done true started)
    (run : Exec.run (self.runCommand ctx cmd) started = .done ret ended) :
    Exec.run (runPipelineChild self ctx fds cmd) child = .stopped (.exited (if ret < 0 then 127 else ret)) ended := by
  rw [runPipelineChild_starts entered, pipelineCode]
  simp only [Exec.run_bind, Exec.run_leaf, run, Outcome.andThen_done, Leaf.run_exitProcess]

theorem runAsyncChild_starts {andOrList : AndOrList}
    (entered : Leaf.run (enterAsync self.fuel ctx) child = .done () started) :
    Exec.run (runAsyncChild self ctx andOrList) child = Exec.run (asyncCode self ctx andOrList) started := by
  obtain ⟨_, marked, first, entered⟩ := Leaf.run_bind_done.mp entered
  obtain ⟨pid, asked, second, entered⟩ := Leaf.run_bind_done.mp entered
  obtain ⟨_, created, third, entered⟩ := Leaf.run_bind_done.mp entered
  obtain ⟨_, left, fourth, entered⟩ := Leaf.run_bind_done.mp entered
  unfold runAsyncChild
  rw [Exec.run_leaf_bind_of_done first, Exec.run_leaf_bind_of_done second, Exec.run_leaf_bind_of_done third,
    Exec.run_leaf_bind_of_done fourth, Exec.run_leaf_bind_of_done entered]
  rfl

theorem runAsyncChild_exits {andOrList : AndOrList}
    (entered : Leaf.run (enterAsync self.fuel ctx) child = .done () started)
    (run : Exec.run (runAndOrList (runPipeline self ctx) (record .orInterrupted) andOrList) started = .done ret ended) :
    Exec.run (runAsyncChild self ctx andOrList) child = .stopped (.exited (if ret < 0 then 127 else ret)) ended := by
  rw [runAsyncChild_starts entered, asyncCode]
  simp only [Exec.run_bind, Exec.run_leaf, run, Outcome.andThen_done, Leaf.run_exitProcess]

theorem runWordCommandChild_starts {α : Type} {program : Program} {fds : Int × Int}
    (entered : Leaf.run (enterWordCommand self.fuel program fds) child = .done () started) :
    Exec.run (runWordCommandChild self (some program) fds : Exec World α) child =
      Exec.run (wordCommandCode self program : Exec World α) started := by
  obtain ⟨_, closed, first, entered⟩ := Leaf.run_bind_done.mp entered
  obtain ⟨_, moved, second, entered⟩ := Leaf.run_bind_done.mp entered
  obtain ⟨_, left, third, entered⟩ := Leaf.run_bind_done.mp entered
  have runs : ∀ next : Exec World α, Exec.run (do
      if !(some program).any isPrintTraps then
        let _ ← leaf resetCaughtTraps
      next) left = Exec.run next started := by
    intro next
    unfold leaveTraps at entered
    by_cases kept : isPrintTraps program = true
    · simp only [kept, Bool.not_true, Bool.false_eq_true, if_false, Leaf.run_pure] at entered
      obtain ⟨_, rfl⟩ := Outcome.done.inj entered
      simp [kept]
    · simp only [kept, Bool.not_false, if_true] at entered
      obtain ⟨_, _, reset, entered⟩ := Leaf.run_bind_done.mp entered
      obtain ⟨_, rfl⟩ := Outcome.done.inj entered
      simp [kept, reset]
  unfold runWordCommandChild
  rw [Exec.run_leaf_bind_of_done first]
  unfold moveOutput at second
  by_cases away : (fds.2 != stdoutFileno) = true
  · rw [if_pos away] at second
    obtain ⟨_, duplicated, duplicate, second⟩ := Leaf.run_bind_done.mp second
    simp only [away, if_true]
    rw [Exec.run_leaf_bind_of_done duplicate, Exec.run_leaf_bind_of_done second, Exec.run_leaf_bind_of_done third]
    exact runs _
  · rw [if_neg away] at second
    obtain ⟨_, rfl⟩ := Outcome.done.inj second
    simp only [away, Bool.false_eq_true, if_false]
    rw [Exec.run_leaf_bind_of_done third]
    exact runs _

theorem runWordCommandChild_exits {α : Type} {program : Program} {fds : Int × Int}
    (entered : Leaf.run (enterWordCommand self.fuel program fds) child = .done () started)
    (run : Exec.run (self.mrshRunProgram program) started = .done ret ended) :
    Exec.run (runWordCommandChild self (some program) fds : Exec World α) child =
      .stopped (.exited (if 0 ≤ ended.exit then ended.exit else 0)) ended := by
  rw [runWordCommandChild_starts entered, wordCommandCode]
  simp only [Exec.run_bind, Exec.run_leaf, run, Outcome.andThen_done, Leaf.run_gets, Leaf.run_exitProcess]

/-! ## The parent -/

/-- The wait status of a process that has called `exit` with the code. -/
def waitStatus (code : Int) : Nat := (code % 256).toNat * 256

theorem wexitstatus_waitStatus (code : Int) : (wexitstatus (waitStatus code) : Int) = code % 256 := by
  rw [wexitstatus, waitStatus]
  omega

variable {parent : Shell World} {pid : Int} {stat fuel : Nat} {world : World}

/-- The shell once it knows of a new process. -/
def Shell.withProcess (state : Shell World) (pid : Int) : Shell World :=
  { state with
    nextSerial := state.nextSerial + 1
    processes := state.processes ++
      [{ serial := state.nextSerial, pid, stopped := false, terminated := false, stat := 0, signal := 0 }] }

theorem runSubshell_gets {body : List CommandList} (forked : System.fork parent.world = (.ok pid, world))
    (isParent : pid ≠ 0) (size : self.fuel = fuel + 2)
    (awaits : Awaits (({ parent with world } : Shell World).withProcess pid) parent.nextSerial pid stat (fuel + 1))
    (exited : wifexited stat = true) :
    ∃ after, Exec.run (runSubshell self ctx body) parent = .done (wexitstatus stat) after := by
  obtain ⟨after, waited⟩ := jobWaitProcess_reaped awaits exited
  refine ⟨after, ?_⟩
  have notChild : (pid == 0) = false := by simpa using isParent
  rw [runSubshell, Exec.run_bind, Exec.run_leaf, Leaf.run_call, forked]
  simp only [Outcome.andThen_done, notChild, Bool.false_eq_true, if_false, Exec.run_leaf]
  rw [size]
  exact waited

theorem waitProcesses_gets (procs : List Nat) {first between : Shell World} {status last : Int} {serial : Nat}
    (before : Leaf.run (waitProcesses (fuel + 2) procs status) first = .done last between) (ended : 0 ≤ last)
    (awaits : Awaits between serial pid stat (fuel + 1)) (exited : wifexited stat = true) :
    ∃ after, Leaf.run (waitProcesses (fuel + 2) (procs ++ [serial]) status) first = .done (wexitstatus stat) after := by
  induction procs generalizing first status with
  | nil =>
      obtain ⟨_, rfl⟩ := Outcome.done.inj before
      obtain ⟨after, waited⟩ := jobWaitProcess_reaped awaits exited
      refine ⟨after, ?_⟩
      have nonneg : ¬((wexitstatus stat : Int) < 0) := by omega
      rw [List.nil_append, waitProcesses, Leaf.run_bind_of_done waited, if_neg nonneg]
      rfl
  | cons proc procs ih =>
      obtain ⟨ret, next, waited, before⟩ := Leaf.run_bind_done.mp before
      by_cases failed : ret < 0
      · rw [if_pos failed] at before
        obtain ⟨rfl, _⟩ := Outcome.done.inj before
        omega
      · rw [if_neg failed] at before
        obtain ⟨after, run⟩ := ih before
        refine ⟨after, ?_⟩
        rw [List.cons_append, waitProcesses, Leaf.run_bind_of_done waited, if_neg failed]
        exact run

theorem waitHandle_decimal {n : Nat} {proc : Process} (positive : 0 < n) (small : (n : Int) < 2 ^ 31)
    (byPid : parent.processes.find? (·.pid == (n : Int)) = some proc) :
    Leaf.run (waitHandle (decimal n)) parent =
      .done (some ⟨n, if proc.terminated then proc.stat else -1⟩) parent := by
  obtain ⟨c, rest, digits⟩ := List.exists_cons_of_ne_nil (decimal_ne_nil n)
  have noPercent : ((decimal n).head? == some '%') = false := by
    have digit := decimal_digits n c (by rw [digits]; exact List.mem_cons_self)
    rw [digits]
    simpa using isDigit_ne digit (by decide)
  have scanned := strtol_decimal n 10 (.inr rfl) (by rw [longMax]; omega)
  have inRange : toInt32 (n : Int) = n := toInt32_eq (by omega) small
  have notEmpty : (decimal n).isEmpty = false := by rw [digits]; rfl
  have notNegative : ¬((n : Int) ≤ 0) := by omega
  unfold waitHandle
  simp only [noPercent, Bool.false_eq_true, if_false, scanned, inRange, List.isEmpty_nil, Bool.not_true, notEmpty,
    Bool.or_self, notNegative, Leaf.run_bind, Leaf.run_gets, Outcome.andThen_done, byPid]
  rfl

theorem builtinWait_gets {n serial : Nat} {proc : Process} (positive : 0 < n) (small : (n : Int) < 2 ^ 31)
    (bySerial : parent.processes.find? (·.serial == serial) = some proc)
    (byPid : parent.processes.find? (·.pid == (n : Int)) = some proc) (jobs : JobsKnown parent)
    (reported : System.waitpid (n : Int) false false parent.world = (.ok ((n : Int), stat), world))
    (exited : wifexited stat = true) :
    ∃ after, Leaf.run (builtinWait ["wait".toList, decimal n]) parent = .done (wexitstatus stat) after := by
  obtain ⟨after, updated, _⟩ := @updateProcess_run _ { parent with world } _ _ _ _ bySerial byPid exited jobs
  refine ⟨after, ?_⟩
  have waits : Leaf.run (waitForHandles [⟨n, if proc.terminated then proc.stat else -1⟩] 0) parent =
      .done (some (wexitstatus stat)) after := by
    rw [waitForHandles, Leaf.run_bind, Leaf.run_call, reported, Outcome.andThen_done]
    simp only [Leaf.run_bind, updated, Outcome.andThen_done, exited, if_true]
    rfl
  simp [builtinWait, waitHandles, waitHandle_decimal positive small byPid, waits]

/-- `wait` for a process that has been waited for before, which has its whole wait status. -/
theorem builtinWait_again {n : Nat} {proc : Process} (positive : 0 < n) (small : (n : Int) < 2 ^ 31)
    (byPid : parent.processes.find? (·.pid == (n : Int)) = some proc) (terminated : proc.terminated = true)
    (reported : System.waitpid (n : Int) false false parent.world = (.error .echild, world)) :
    ∃ after, Leaf.run (builtinWait ["wait".toList, decimal n]) parent = .done proc.stat after := by
  refine ⟨{ parent with world }, ?_⟩
  have waits : Leaf.run (waitForHandles [⟨n, if proc.terminated then proc.stat else -1⟩] 0) parent =
      .done (some proc.stat) { parent with world } := by
    rw [waitForHandles, Leaf.run_bind, Leaf.run_call, reported, Outcome.andThen_done]
    simp only [terminated, if_true]
    rfl
  simp [builtinWait, waitHandles, waitHandle_decimal positive small byPid, waits]

theorem runWordCommand_gets {word : Word} {program : Option Program} {fds : Int × Int} {piped : World}
    {read : Shell World} {buf : Str} (pipe : System.pipe parent.world = (.ok fds, piped))
    (forked : System.fork piped = (.ok pid, world)) (isParent : pid ≠ 0) (size : self.fuel = fuel + 2)
    (output : Leaf.run (do call (System.close fds.2); bufferReadFrom fds.1 self.fuel [])
      (({ parent with world } : Shell World).withProcess pid) = .done (some buf) read)
    (awaits : Awaits ({ read with world := (System.close fds.1 read.world).2 } : Shell World) parent.nextSerial pid stat
      (fuel + 1)) (exited : wifexited stat = true) :
    ∃ after, Exec.run (runWordCommand self word program) parent =
      .done (wexitstatus stat, splitString (commandOutput buf)) after := by
  obtain ⟨_, closed, first, output⟩ := Leaf.run_bind_done.mp output
  obtain ⟨after, waited⟩ := jobWaitProcess_reaped awaits exited
  refine ⟨after, ?_⟩
  have notChild : (pid == 0) = false := by simpa using isParent
  have created : Leaf.run (processCreate pid) ({ parent with world } : Shell World) =
      .done parent.nextSerial (({ parent with world } : Shell World).withProcess pid) := rfl
  have waited : Leaf.run (jobWaitProcess parent.nextSerial self.fuel)
      ({ read with world := (System.close fds.1 read.world).2 } : Shell World) = .done (wexitstatus stat) after := by
    rw [size]
    exact waited
  rw [runWordCommand, Exec.run_bind, Exec.run_leaf, Leaf.run_call, pipe, Outcome.andThen_done]
  dsimp only
  rw [Exec.run_bind, Exec.run_leaf, Leaf.run_call, forked, Outcome.andThen_done]
  dsimp only
  rw [notChild, if_neg Bool.false_ne_true]
  rw [Exec.run_leaf_bind_of_done created, Exec.run_leaf_bind_of_done first, Exec.run_leaf_bind_of_done output]
  simp only [Exec.run_bind, Exec.run_leaf, Leaf.run_call, Outcome.andThen_done, waited, Exec.run_pure]

/-- The command `name=$(program)` has status 0, whatever the status of the substitution. -/
theorem runSimpleCommand_substitution {sc : SimpleCommand} {copied : Assignment} {program : Option Program}
    {backQuoted : Bool} {range : Range} {text : Str} {afterwards : Shell World} {status : Int} (noName : sc.name = none)
    (copy : assignmentArrayCopy parent.nextSerial sc.assignments = some [copied])
    (value : copied.value = .command program backQuoted range)
    (substitute : Exec.run (runWordCommand self copied.value program)
      { parent with
        nextSerial := parent.nextSerial + 1
        history := parent.history ++ [⟨.simpleCommand, 0 < parent.runningActions⟩] } =
      .done (status, splitString text) afterwards)
    (succeeds : 0 ≤ status) (writable : isReadonly afterwards copied.name = false) :
    ∃ after, Exec.run (runSimpleCommand self ctx sc) parent = .done 0 after := by
  obtain ⟨name, word, nameRange, equalPos⟩ := copied
  subst value
  let started : Shell World := { parent with
    nextSerial := parent.nextSerial + 1
    history := parent.history ++ [⟨.simpleCommand, 0 < parent.runningActions⟩] }
  have tilde : Leaf.run (expandTildeWord (.command program backQuoted range) true) started =
      .done (.command program backQuoted range) started := rfl
  have notNegative : ¬status < 0 := by omega
  have substituted : Exec.run (runWord self ctx (.command program backQuoted range)) started =
      .done (status, splitString text) afterwards := substitute
  have expanded : Exec.run (expandAssignments self ctx [⟨name, .command program backQuoted range, nameRange, equalPos⟩])
      started = .done (0, [⟨name, splitString text, nameRange, equalPos⟩]) afterwards := by
    simp only [expandAssignments, Exec.run_bind, Exec.run_leaf, tilde, Outcome.andThen_done, substituted, notNegative,
      if_false, Exec.run_pure]
  have assigned : ∃ after, Leaf.run (runAssignments [⟨name, splitString text, nameRange, equalPos⟩]) afterwards =
      .done 0 after := by
    have sets : ∀ attribs, Leaf.run (envSetChecked name text attribs) afterwards =
        .done true (writeVar afterwards name (some ⟨text, attribs⟩)) := by
      intro attribs
      have free : isReadonly afterwards name = false := writable
      simp [envSetChecked, Leaf.run, Prog.run, handleLeaf, free]
    let attribs : Attribs := if afterwards.options .allexport then .exportOnly else .none
    refine ⟨writeVar afterwards name (some ⟨text, attribs⟩), ?_⟩
    have str : mrshWordStr (splitString text) = some text := rfl
    rw [runAssignments, str, orCrash_some, pure_bind, Leaf.run_bind]
    simp only [optionSet, Leaf.run_gets, Outcome.andThen_done, Leaf.run_bind, sets, if_true]
    rfl
  obtain ⟨after, assigned⟩ := assigned
  refine ⟨after, ?_⟩
  have only : Exec.run (runOnlyAssignments self ctx sc)
      { parent with history := parent.history ++ [⟨.simpleCommand, 0 < parent.runningActions⟩] } = .done 0 after := by
    have serial : Leaf.run newSerial
        ({ parent with history := parent.history ++ [⟨.simpleCommand, 0 < parent.runningActions⟩] } : Shell World) =
        .done parent.nextSerial started := rfl
    have failedNot : ¬((0 : Int) < 0) := by decide
    simp only [runOnlyAssignments, Exec.run_bind, Exec.run_leaf, serial, Outcome.andThen_done, copy, orCrash_some,
      Leaf.run_pure, expanded, failedNot, if_false, assigned]
  rw [runSimpleCommand, Exec.run_bind, noName]
  exact only

/-! ## What the parent observes -/

/-- The child exits with a code, of which the parent sees the lowest eight bits. -/
def ExitsAs {α : Type} (prog : Exec World α) (child ended : Shell World) (observed : Int) : Prop :=
  ∃ code, Exec.run prog child = .stopped (.exited code) ended ∧ (wexitstatus (waitStatus code) : Int) = observed

/-- A subshell has the status of its child. -/
def SubshellGets (self : Tasks World) (ctx : Context) (body : List CommandList) (observed : Int) : Prop :=
  ∀ (parent : Shell World) (pid : Int) (world : World) (stat fuel : Nat),
    System.fork parent.world = (.ok pid, world) → pid ≠ 0 → self.fuel = fuel + 2 →
    Awaits (({ parent with world } : Shell World).withProcess pid) parent.nextSerial pid stat (fuel + 1) →
    wifexited stat = true → (wexitstatus stat : Int) = observed →
    ∃ after, Exec.run (runSubshell self ctx body) parent = .done observed after

/-- A pipeline has the status of the child of its last element. -/
def PipelineGets (World : Type) [System World] (observed : Int) : Prop :=
  ∀ (procs : List Nat) (started between : Shell World) (last : Int) (serial : Nat) (pid : Int) (stat fuel : Nat),
    Leaf.run (waitProcesses (fuel + 2) procs 0) started = .done last between → 0 ≤ last →
    Awaits between serial pid stat (fuel + 1) → wifexited stat = true → (wexitstatus stat : Int) = observed →
    ∃ after, Leaf.run (waitProcesses (fuel + 2) (procs ++ [serial]) 0) started = .done observed after

/-- `wait` has the status of the child that it waits for, or 256 times the status of one that has ended before. -/
def WaitGets (World : Type) [System World] (observed : Int) : Prop :=
  ∀ (parent : Shell World) (n serial : Nat) (proc : Process) (world : World), 0 < n → (n : Int) < 2 ^ 31 →
    parent.processes.find? (·.serial == serial) = some proc → parent.processes.find? (·.pid == (n : Int)) = some proc →
    JobsKnown parent →
    (∀ stat, System.waitpid (n : Int) false false parent.world = (.ok ((n : Int), stat), world) →
      wifexited stat = true → (wexitstatus stat : Int) = observed →
      ∃ after, Leaf.run (builtinWait ["wait".toList, decimal n]) parent = .done observed after) ∧
    (System.waitpid (n : Int) false false parent.world = (.error .echild, world) → proc.terminated = true →
      (proc.stat : Int) = 256 * observed →
      ∃ after, Leaf.run (builtinWait ["wait".toList, decimal n]) parent = .done (256 * observed) after)

/-- The substitution has the status of its child, and the assignment of its output has status 0. -/
def SubstitutionGets (self : Tasks World) (ctx : Context) (program : Program) (observed : Int) : Prop :=
  (∀ (parent read : Shell World) (word : Word) (fds : Int × Int) (piped world : World) (pid : Int) (buf : Str)
      (stat fuel : Nat), System.pipe parent.world = (.ok fds, piped) → System.fork piped = (.ok pid, world) → pid ≠ 0 →
    self.fuel = fuel + 2 →
    Leaf.run (do call (System.close fds.2); bufferReadFrom fds.1 self.fuel [])
      (({ parent with world } : Shell World).withProcess pid) = .done (some buf) read →
    Awaits ({ read with world := (System.close fds.1 read.world).2 } : Shell World) parent.nextSerial pid stat
      (fuel + 1) → wifexited stat = true → (wexitstatus stat : Int) = observed →
    ∃ after, Exec.run (runWordCommand self word (some program)) parent =
      .done (observed, splitString (commandOutput buf)) after) ∧
  ∀ (parent afterwards : Shell World) (sc : SimpleCommand) (copied : Assignment) (backQuoted : Bool) (range : Range)
      (text : Str), sc.name = none → assignmentArrayCopy parent.nextSerial sc.assignments = some [copied] →
    copied.value = .command (some program) backQuoted range →
    Exec.run (runWordCommand self copied.value (some program))
      { parent with
        nextSerial := parent.nextSerial + 1
        history := parent.history ++ [⟨.simpleCommand, 0 < parent.runningActions⟩] } =
      .done (observed, splitString text) afterwards →
    isReadonly afterwards copied.name = false →
    ∃ after, Exec.run (runSimpleCommand self ctx sc) parent = .done 0 after

omit [System World] in
theorem ExitsAs.of_run {α : Type} {prog : Exec World α} {code : Int}
    (run : Exec.run prog child = .stopped (.exited code) ended) : ExitsAs prog child ended (code % 256) :=
  ⟨code, run, wexitstatus_waitStatus code⟩

omit [System World] in
theorem interruptedCode_iff {byExit : Bool} {status : Int} (ends : EndsWith byExit status ret ended) :
    (if ret < 0 then 127 else ret) % 256 = status ↔
      (byExit = true → if ret < 0 then status = 127 else status = ret % 256) := by
  obtain ⟨_, last, range⟩ := ends
  cases byExit with
  | true => split <;> simp [eq_comm]
  | false =>
      obtain rfl := last rfl
      have notNegative : ¬ret < 0 := by omega
      simp only [notNegative, if_false, Bool.false_eq_true, false_implies, iff_true]
      omega

theorem subshell_observes {byExit : Bool} {status : Int} (ends : EndsWith byExit status ret ended)
    {body : List CommandList} (entered : Leaf.run enterSubshell child = .done () started)
    (run : Exec.run (runCommandListArray self ctx body) started = .done ret ended) :
    ∃ observed, ExitsAs (runSubshellChild self ctx body) child ended observed ∧ SubshellGets self ctx body observed ∧
      (observed = status ↔ (byExit = true → 0 ≤ ret ∨ status = 127)) := by
  refine ⟨_, .of_run (runSubshellChild_exits entered run), ?_, ?_⟩
  · intro parent pid world stat fuel forked isParent size awaits exited same
    rw [← same]
    exact runSubshell_gets forked isParent size awaits exited
  · obtain ⟨exit, last, range⟩ := ends
    cases byExit with
    | true =>
        simp only [if_true] at exit
        rw [exit, if_pos range.1]
        by_cases interrupted : ret < 0
        · have notLeft : ¬(0 ≤ ret) := by omega
          simp only [interrupted, if_true, notLeft, false_or, true_implies]
          omega
        · have left : 0 ≤ ret := by omega
          simp only [interrupted, if_false, left, true_or, implies_true, iff_true]
          omega
    | false =>
        obtain rfl := last rfl
        have notNegative : ¬ret < 0 := by omega
        have noExit : ¬(0 ≤ ended.exit) := by rw [exit]; simp
        simp only [notNegative, noExit, if_false, Bool.false_eq_true, false_implies, iff_true]
        omega

theorem waitGets (observed : Int) : WaitGets World observed := by
  intro parent n serial proc world positive small bySerial byPid jobs
  refine ⟨?_, ?_⟩
  · intro stat reported exited same
    rw [← same]
    exact builtinWait_gets positive small bySerial byPid jobs reported exited
  · intro reported terminated stat
    rw [← stat]
    exact builtinWait_again positive small byPid terminated reported

theorem substitutionGets {program : Program} {observed : Int} (nonneg : 0 ≤ observed) :
    SubstitutionGets self ctx program observed := by
  refine ⟨?_, ?_⟩
  · intro parent read word fds piped world pid buf stat fuel pipe forked isParent size output awaits exited same
    rw [← same]
    exact runWordCommand_gets pipe forked isParent size output awaits exited
  · intro parent afterwards sc copied backQuoted range text noName copy value substitute writable
    exact runSimpleCommand_substitution noName copy value substitute nonneg writable

/-- The parent observes the status with which the program ends in a child, except that it sees 127 for an `exit` that
interrupts the child, the status of the loop where a loop has stopped the interruption, and always 0 for the assignment
of a command substitution. -/
theorem forkedStatus_iff {byExit : Bool} {status : Int} (ends : EndsWith byExit status ret ended) :
    (∀ body child started, Leaf.run enterSubshell child = .done () started →
      Exec.run (runCommandListArray self ctx body) started = .done ret ended →
      ∃ observed, ExitsAs (runSubshellChild self ctx body) child ended observed ∧ SubshellGets self ctx body observed ∧
        (observed = status ↔ (byExit = true → 0 ≤ ret ∨ status = 127))) ∧
    (∀ fds cmd child started, Leaf.run (preparePipelineChild self.fuel ctx fds) child = .done true started →
      Exec.run (self.runCommand ctx cmd) started = .done ret ended →
      ∃ observed, ExitsAs (runPipelineChild self ctx fds cmd) child ended observed ∧ PipelineGets World observed ∧
        (observed = status ↔ (byExit = true → if ret < 0 then status = 127 else status = ret % 256))) ∧
    (∀ andOrList child started, Leaf.run (enterAsync self.fuel ctx) child = .done () started →
      Exec.run (runAndOrList (runPipeline self ctx) (record .orInterrupted) andOrList) started = .done ret ended →
      ∃ observed, ExitsAs (runAsyncChild self ctx andOrList) child ended observed ∧ WaitGets World observed ∧
        (observed = status ↔ (byExit = true → if ret < 0 then status = 127 else status = ret % 256)) ∧
        (256 * observed = status ↔ observed = status ∧ status = 0)) ∧
    (∀ program fds child started, Leaf.run (enterWordCommand self.fuel program fds) child = .done () started →
      Exec.run (self.mrshRunProgram program) started = .done ret ended →
      ∃ observed, ExitsAs (runWordCommandChild self (some program) fds : Exec World Unit) child ended observed ∧
        SubstitutionGets self ctx program observed ∧ (observed = status ∧ 0 = status ↔ status = 0)) := by
  refine ⟨?_, ?_, ?_, ?_⟩
  · intro body child started entered run
    exact subshell_observes ends entered run
  · intro fds cmd child started entered run
    refine ⟨_, .of_run (runPipelineChild_exits entered run), ?_, interruptedCode_iff ends⟩
    intro procs first between last serial pid stat fuel before ended awaits exited same
    rw [← same]
    exact waitProcesses_gets procs before ended awaits exited
  · intro andOrList child started entered run
    refine ⟨_, .of_run (runAsyncChild_exits entered run), waitGets _, interruptedCode_iff ends, ?_⟩
    have range := ends.range
    omega
  · intro program fds child started entered run
    refine ⟨_, .of_run (runWordCommandChild_exits entered run), substitutionGets (by omega), ?_⟩
    obtain ⟨exit, _, range⟩ := ends
    rw [exit]
    cases byExit with
    | true =>
        simp only [if_true, range.1]
        omega
    | false =>
        simp only [Bool.false_eq_true, if_false]
        omega

end

/-- A shell with job control, whose children keep their standard input. -/
def monitoringShell : Shell Machine :=
  { mrshStateCreate [] Machine.isolated with options := fun option => option == .monitor }

/-- How a run that stops ends. -/
def endingOf {World α : Type} (outcome : Outcome Ending (Shell World) α) : Option Ending :=
  match outcome with
  | .done _ _ => none
  | .stopped ending _ => some ending

theorem ExitsAs.observed_eq {World α : Type} {prog : Exec World α} {child ended : Shell World} {observed code : Int}
    (exits : ExitsAs prog child ended observed) (exited : endingOf (Exec.run prog child) = some (.exited code)) :
    observed = code % 256 := by
  obtain ⟨found, run, rfl⟩ := exits
  rw [run, endingOf] at exited
  cases exited
  exact wexitstatus_waitStatus code

def oneCommand (name : Str) (arguments : List Str) : SimpleCommand where
  name := some (mrshWordStringCreate name false)
  arguments := arguments.map (mrshWordStringCreate · false)
  ioRedirects := []
  assignments := []

def exitCommand (arguments : List Str) : CommandList :=
  commandListOf
    (.pipeline { commands :=
      [.simpleCommand (oneCommand "exit".toList arguments)], bang := false, bangPos := .invalid })
    none .invalid

/-- A machine with pipes, on which `waitpid` reports that the child has exited with the code. -/
@[reducible] def exitingSystem (code : Int) : System Machine :=
  { (inferInstance : System Machine) with
    waitpid := fun pid _ _ machine => (.ok (pid, waitStatus code), machine)
    pipe := fun machine => (.ok (3, 4), machine)
    openFile := fun _ _ machine => (.ok stdinFileno, machine) }

def forkingShell : Shell Machine := mrshStateCreate [] Machine.isolated

theorem awaits_exiting (code : Int) (fuel : Nat) :
    @Awaits Machine (exitingSystem code) (forkingShell.withProcess 2) 0 2 (waitStatus code) (fuel + 1) := by
  have other : (1 : Int) ≠ 2 := by decide
  exact @Awaits.mk Machine (exitingSystem code) _ _ _ _ _ ⟨_, rfl, rfl, rfl, rfl⟩ (by decide) other
    (fun _ member => (List.not_mem_nil member).elim) (@Reaped.now Machine (exitingSystem code) _ _ _ _ _ rfl)

/-- `exit 3` in a subshell, `false` in a pipeline, `exit 3` in a list that is waited for, and `x=$(exit 3)`. -/
theorem forkedStatus_ends :
    (∃ observed after,
      Exec.run (@runSubshell Machine (exitingSystem 127) (@tasks Machine (exitingSystem 127) 3) .initial
        [exitCommand [['3']]]) forkingShell = .done observed after ∧ observed ≠ 3) ∧
    (∃ after, Leaf.run (@waitProcesses Machine (exitingSystem 1) 3 ([] ++ [0]) 0) (forkingShell.withProcess 2) =
      .done 1 after) ∧
    (∃ observed after, Leaf.run (@builtinWait Machine (exitingSystem 127) ["wait".toList, decimal 2])
      (forkingShell.withProcess 2) = .done observed after ∧ observed ≠ 3) ∧
    ∃ after, Exec.run (@runWordCommand Machine (exitingSystem 3) (@tasks Machine (exitingSystem 3) 3) .null
      (some { body := [exitCommand [['3']]] })) forkingShell = .done (3, splitString []) after := by
  refine ⟨?_, ?_, ?_, ?_⟩
  · let system : System Machine := exitingSystem 127
    let started := (Leaf.run enterSubshell forkingShell).state
    let last := (Exec.run (runCommandListArray (tasks 3) .initial [exitCommand [['3']]]) started).state
    have ends : EndsWith true 3 taskStatusInterrupted last := ⟨by decide +kernel, fun no => absurd no (by decide),
      by decide⟩
    obtain ⟨observed, exits, gets, exactly⟩ := (@forkedStatus_iff _ _ (tasks 3) .initial _ _ _ _ ends).1
      [exitCommand [['3']]] forkingShell started (Outcome.eq_done_of_value? (by decide +kernel))
      (Outcome.eq_done_of_value? (by decide +kernel))
    have code : observed = 127 % 256 := exits.observed_eq (by decide +kernel)
    obtain ⟨after, got⟩ := gets forkingShell 2 Machine.isolated (waitStatus 127) 0 rfl (by decide) rfl
      (awaits_exiting 127 0) rfl (by rw [code]; rfl)
    exact ⟨observed, after, got, fun same => absurd (exactly.mp same rfl) (by decide)⟩
  · let system : System Machine := exitingSystem 1
    let cmd : Command := .simpleCommand (oneCommand "false".toList [])
    let started := (Leaf.run (preparePipelineChild 3 .initial ⟨none, none, none⟩) forkingShell).state
    let last := (Exec.run ((tasks 3).runCommand .initial cmd) started).state
    have ends : EndsWith false 1 1 last := ⟨by decide +kernel, fun _ => rfl, by decide⟩
    obtain ⟨observed, -, gets, exactly⟩ := (@forkedStatus_iff _ _ (tasks 3) .initial _ _ _ _ ends).2.1
      ⟨none, none, none⟩ cmd forkingShell started (Outcome.eq_done_of_value? (by decide +kernel))
      (Outcome.eq_done_of_value? (by decide +kernel))
    obtain rfl : observed = 1 := exactly.mpr fun no => absurd no (by decide)
    exact gets [] _ _ 0 0 2 (waitStatus 1) 1 rfl (by decide) (awaits_exiting 1 1) rfl rfl
  · let system : System Machine := exitingSystem 127
    let list : AndOrList :=
      .pipeline { commands := [.simpleCommand (oneCommand "exit".toList [['3']])], bang := false, bangPos := .invalid }
    let started := (Leaf.run (enterAsync 3 .initial) forkingShell).state
    let last := (Exec.run (runAndOrList (runPipeline (tasks 3) .initial) (record .orInterrupted) list) started).state
    have ends : EndsWith true 3 taskStatusInterrupted last := ⟨by decide +kernel, fun no => absurd no (by decide),
      by decide⟩
    obtain ⟨observed, exits, gets, exactly, -⟩ := (@forkedStatus_iff _ _ (tasks 3) .initial _ _ _ _ ends).2.2.1
      list forkingShell started (Outcome.eq_done_of_value? (by decide +kernel))
      (Outcome.eq_done_of_value? (by decide +kernel))
    have code : observed = 127 % 256 := exits.observed_eq (by decide +kernel)
    obtain ⟨after, got⟩ := (gets (forkingShell.withProcess 2) 2 0 _ Machine.isolated (by decide) (by decide) rfl rfl
      (fun _ member => (List.not_mem_nil member).elim)).1 (waitStatus 127) rfl rfl (by rw [code]; rfl)
    exact ⟨observed, after, got, fun same => absurd (exactly.mp same rfl) (by decide)⟩
  · let system : System Machine := exitingSystem 3
    let program : Program := { body := [exitCommand [['3']]] }
    let started := (Leaf.run (enterWordCommand 3 program (3, 4)) forkingShell).state
    let last := (Exec.run ((tasks 3).mrshRunProgram program) started).state
    have ends : EndsWith true 3 taskStatusInterrupted last := ⟨by decide +kernel, fun no => absurd no (by decide),
      by decide⟩
    obtain ⟨observed, exits, gets, -⟩ := (@forkedStatus_iff _ _ (tasks 3) .initial _ _ _ _ ends).2.2.2
      program (3, 4) forkingShell started (Outcome.eq_done_of_value? (by decide +kernel))
      (Outcome.eq_done_of_value? (by decide +kernel))
    obtain rfl : observed = 3 % 256 := exits.observed_eq (by decide +kernel)
    exact gets.1 forkingShell (forkingShell.withProcess 2) .null (3, 4) _ _ 2 []
      (waitStatus 3) 0 rfl rfl (by decide) rfl
      rfl (awaits_exiting 3 0) rfl rfl

/-- The program `exit 3` ends with 3, and its subshell does not. -/
theorem subshell_hides_exit :
    ∃ started last, Leaf.run enterSubshell monitoringShell = .done () started ∧
      Exec.run (runCommandListArray (tasks 3) .initial [exitCommand [['3']]]) started =
        .done taskStatusInterrupted last ∧
      EndsWith true 3 taskStatusInterrupted last ∧
      ¬ ∃ ended, ExitsAs (runSubshellChild (tasks 3) .initial [exitCommand [['3']]]) monitoringShell ended 3 := by
  refine ⟨_, _, Outcome.eq_done_of_value? (by decide +kernel), Outcome.eq_done_of_value? (by decide +kernel),
    ⟨by decide +kernel, fun no => absurd no (by decide), by decide⟩, ?_⟩
  rintro ⟨ended, exits⟩
  have code : (3 : Int) = 127 % 256 := exits.observed_eq (by decide +kernel)
  exact absurd code (by decide)

end Mrsh
