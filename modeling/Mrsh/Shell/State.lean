import Mrsh.Ast
import Mrsh.Data.Hashtable
import Mrsh.Data.Prog
import Mrsh.Shell.System

namespace Mrsh

open Mrsh.Data

/-! # The shell state

The state of `include/mrsh/shell.h` and `include/shell/shell.h`, and the
functions of `shell/shell.c`. An object that the code refers to by a pointer has
a serial number. Beside what the shell knows, the state has the environment of
the process, the world, and some record of what the shell did, which no
function of the shell reads.

The variables, the exit status and what only the control flow of the shell
changes are fields apart from the `Core`. Every function is a program. A `Leaf`
program changes the core and the variables and sets the exit status, an `Exec`
program changes everything.
-/

/-- How the run of a process ends. -/
inductive Ending where
  | outOfFuel
  /-- A call of `abort`, a failed assertion or undefined behaviour. -/
  | aborted
  | exited (status : Int)
  | executed (path : Str) (argv : List Str) (environ : List (Str × Str))
deriving Repr, DecidableEq

inductive ShellOption where
  | allexport | notify | noclobber | errexit | noglob | prelookup | monitor | noexec
  | ignoreeof | nolog | vi | nounset | verbose | xtrace
deriving Repr, DecidableEq

structure Attribs where
  exported : Bool
  readonly : Bool
deriving Repr, DecidableEq

namespace Attribs

def none : Attribs := ⟨false, false⟩

def exportOnly : Attribs := ⟨true, false⟩

def readonlyOnly : Attribs := ⟨false, true⟩

def union (first second : Attribs) : Attribs :=
  ⟨first.exported || second.exported, first.readonly || second.readonly⟩

end Attribs

structure Variable where
  value : Str
  attribs : Attribs
deriving Repr, DecidableEq

inductive BranchControl where
  | break | continue | return | exit
deriving Repr, DecidableEq

/-- A pointer to a string. Two slots with the same number point to the same
string, so that both are freed together. -/
inductive ArgSlot where
  | string (number : Nat) (str : Str)
  | freed
  | null
deriving Repr, DecidableEq

/-- `argv` is empty where the pointer to the array is NULL. -/
structure CallFrame where
  argv : List ArgSlot
  argc : Int
  branchControl : BranchControl
  nloops : Int
deriving Repr, DecidableEq

structure Process where
  serial : Nat
  pid : Int
  stopped : Bool
  terminated : Bool
  stat : Nat
  signal : Nat
deriving Repr, DecidableEq

/-- What a job runs: a pipeline, or an asynchronous list. -/
inductive JobNode where
  | andOrList (node : AndOrList)
  | commandList (node : CommandList)

structure Job where
  serial : Nat
  node : JobNode
  pgid : Int
  jobId : Int
  termModes : Nat
  processes : List Nat
  pendingNotification : Bool
  lastStatus : Int

inductive TrapAction where
  | default | ignore | catch
deriving Repr, DecidableEq

/-- A program that was parsed for a trap, which is freed when a trap drops it. -/
structure TrapProgram where
  serial : Nat
  program : Program

structure Trap where
  set : Bool
  action : TrapAction
  program : Option TrapProgram

def nsig : Nat := 64

/-- The global variables of `getopt.c`. `optarg` points into an argument. -/
structure Getopt where
  optarg : Option Str
  optind : Int
  optopt : Option Char
  optpos : Nat
deriving Repr, DecidableEq

/-- Who writes a variable without looking at its READONLY attribute. -/
inductive Writer where
  | forClause | arithmetic | parameter | read | getopts | cd
deriving Repr, DecidableEq

/-- What the shell does. -/
inductive Event where
  | simpleCommand
  /-- The `exit` builtin has set the exit status. -/
  | exitBuiltin
  /-- A loop ends with a status that is not negative although its condition or body was
  interrupted, or the shell exits. -/
  | loopInterrupted
  /-- The right operand of `||` is run although the left one has a negative status. -/
  | orInterrupted
  /-- A program has ended with a status that is not negative. -/
  | programCompleted
deriving Repr, DecidableEq

/-- An event, in the action of a trap or not. -/
structure Moment where
  event : Event
  inTrap : Bool
deriving Repr, DecidableEq

def djb2Step (hash : Nat) (c : Char) : Nat := (hash * 33 + c.toNat) % 2 ^ 32

def djb2 (key : Str) : Nat := key.foldl djb2Step 5381

abbrev Table (α : Type) := Hashtable djb2 256 α

structure Core (World : Type) where
  options : ShellOption → Bool
  /-- The arguments of the current call frame. -/
  argv : List ArgSlot
  argc : Int
  interactive : Bool
  lastStatus : Int
  processes : List Process
  aliases : Table Str
  functions : Table Command
  jobControl : Bool
  pgid : Int
  termModes : Nat
  jobs : List Job
  foregroundJob : Option Nat
  traps : Nat → Trap
  freedPrograms : List Nat
  child : Bool
  pendingSigs : Nat → Int
  inTrap : Bool
  getopt : Getopt
  environ : List (Str × Str)
  nextSerial : Nat
  nextAddress : Nat
  /-- The patterns that were passed to `glob`. -/
  globbed : List Str
  world : World

structure Control where
  /-- The other fields of the current call frame. -/
  branchControl : BranchControl
  nloops : Int
  /-- The frames below the current one, from the top. -/
  callers : List CallFrame
  /-- The patterns of the case items that were expanded in place. -/
  casePatterns : Address → Option (List Word)
  /-- The number of actions of traps that are running. -/
  runningActions : Nat
  history : List Moment

structure Shell (World : Type) extends Core World, Control where
  vars : Table Variable
  exit : Int

variable {World : Type}

def mrshStateCreate (environ : List (Str × Str)) (world : World) : Shell World where
  exit := -1
  options _ := false
  argv := []
  argc := 0
  interactive := false
  lastStatus := 0
  processes := []
  aliases := .empty
  functions := .empty
  jobControl := false
  pgid := 0
  termModes := 0
  jobs := []
  foregroundJob := none
  traps _ := { set := false, action := .default, program := none }
  freedPrograms := []
  child := false
  pendingSigs _ := 0
  inTrap := false
  getopt := { optarg := none, optind := 1, optopt := none, optpos := 1 }
  environ := environ
  nextSerial := 0
  nextAddress := 0
  globbed := []
  world := world
  branchControl := .break
  nloops := 0
  callers := []
  casePatterns _ := none
  runningActions := 0
  history := []
  vars := .empty

/-! ## Actions -/

inductive LeafAction (World : Type) where
  | get
  | update (change : Core World → Core World)
  /-- Sets a variable, or unsets it, whether it is readonly or not. -/
  | write (writer : Writer) (key : Str) (var : Option Variable)
  /-- Sets or unsets a variable unless it is readonly. The reply is whether it did. -/
  | assign (key : Str) (var : Option Variable)
  /-- Makes the shell exit, which nothing takes back. -/
  | setExit (status : Nat)

@[reducible] def leafSignature (World : Type) : Signature where
  Action := LeafAction World
  Reply
    | .get => Shell World
    | .update _ => Unit
    | .write _ _ _ => Unit
    | .assign _ _ => Bool
    | .setExit _ => Unit

inductive ControlAction where
  | record (event : Event)
  | push (args : List Str)
  | pop
  | setBranch (branchControl : BranchControl)
  | setLoops (nloops : Int)
  /-- Puts the expansion of a pattern in its place among the patterns of a case item. -/
  | setPatterns (addr : Address) (before : List Word) (pattern expanded : Word) (after : List Word)
  | enterAction
  | leaveAction

@[reducible] def controlSignature : Signature where
  Action := ControlAction
  Reply _ := Unit

abbrev Leaf (World : Type) := Prog (leafSignature World) Ending

abbrev Exec (World : Type) := Prog ((leafSignature World).sum controlSignature) Ending

def isReadonly (state : Shell World) (key : Str) : Bool :=
  match state.vars.get key with
  | some var => var.attribs.readonly
  | none => false

def writeVar (state : Shell World) (key : Str) (var : Option Variable) : Shell World :=
  { state with
    vars := match var with
      | some var => state.vars.set key var
      | none => state.vars.del key }

def handleLeaf : Prog.Handler (leafSignature World) (Shell World)
  | .get, state => (state, state)
  | .update change, state => ((), { state with toCore := change state.toCore })
  | .write _ key var, state => ((), writeVar state key var)
  | .assign key var, state =>
      if isReadonly state key then (false, state) else (true, writeVar state key var)
  | .setExit status, state => ((), { state with exit := status })

def stringsArgv (args : List Str) : List ArgSlot :=
  args.zipIdx.map (fun arg => .string arg.2 arg.1) ++ [.null]

theorem stringsArgv_string {args : List Str} {i : Nat} {arg : Str} (found : args[i]? = some arg) :
    (stringsArgv args)[i]? = some (.string i arg) := by
  have inside : i < args.length := by
    obtain ⟨inside, -⟩ := List.getElem?_eq_some_iff.mp found
    exact inside
  unfold stringsArgv
  rw [List.getElem?_append_left (by simpa using inside)]
  simp [found]

theorem stringsArgv_null (args : List Str) : (stringsArgv args)[args.length]? = some .null := by
  unfold stringsArgv
  rw [List.getElem?_append_right (by simp)]
  simp

def handleControl : Prog.Handler controlSignature (Shell World)
  | .record event, state =>
      ((), { state with history := state.history ++ [⟨event, 0 < state.runningActions⟩] })
  | .push args, state =>
      ((), { state with
        argv := stringsArgv args
        argc := args.length
        branchControl := .break
        nloops := 0
        callers := ⟨state.argv, state.argc, state.branchControl, state.nloops⟩ :: state.callers })
  | .pop, state =>
      ((), match state.callers with
        | [] => state
        | ⟨argv, argc, branchControl, nloops⟩ :: callers =>
            { state with argv, argc, branchControl, nloops, callers })
  | .setBranch branchControl, state => ((), { state with branchControl })
  | .setLoops nloops, state => ((), { state with nloops })
  | .setPatterns addr before _ expanded after, state =>
      ((), { state with
        casePatterns := fun other =>
          if other = addr then some (before ++ expanded :: after) else state.casePatterns other })
  | .enterAction, state => ((), { state with runningActions := state.runningActions + 1 })
  | .leaveAction, state => ((), { state with runningActions := state.runningActions - 1 })

def Leaf.run {α : Type} (prog : Leaf World α) : Run Ending (Shell World) α := Prog.run handleLeaf prog

def Exec.run {α : Type} (prog : Exec World α) : Run Ending (Shell World) α :=
  Prog.run (handleLeaf.sum handleControl) prog

/-- The actions of a run, each with the state before it. -/
def Exec.steps {α : Type} (prog : Exec World α) (state : Shell World) :
    List ((LeafAction World ⊕ ControlAction) × Shell World) :=
  Prog.steps (handleLeaf.sum handleControl) prog state

def leaf {α : Type} (prog : Leaf World α) : Exec World α := Prog.inl prog

def control (action : ControlAction) : Exec World Unit := .act (.inr action) .pure

def record (event : Event) : Exec World Unit := control (.record event)

def gets {α : Type} (read : Shell World → α) : Leaf World α :=
  .act .get fun state => .pure (read state)

def update (change : Core World → Core World) : Leaf World Unit := .act (.update change) .pure

def outOfFuel {α : Type} : Leaf World α := .stop .outOfFuel

def abort {α : Type} : Leaf World α := .stop .aborted

def exitProcess {α : Type} (status : Int) : Leaf World α := .stop (.exited status)

/-! ## Runs -/

namespace Leaf

variable {α β : Type} (state : Shell World)

@[simp] theorem run_pure (value : α) : Leaf.run (pure value : Leaf World α) state = .done value state := rfl

@[simp] theorem run_bind (prog : Leaf World α) (next : α → Leaf World β) :
    Leaf.run (prog >>= next) state = (Leaf.run prog state).andThen fun value after => Leaf.run (next value) after :=
  Prog.run_bind _ _ _ _

@[simp] theorem run_map (change : α → β) (prog : Leaf World α) :
    Leaf.run (change <$> prog) state =
      (Leaf.run prog state).andThen fun value after => .done (change value) after := Prog.run_map _ _ _ _

@[simp] theorem run_ite {condition : Prop} [Decidable condition] (yes no : Leaf World α) :
    Leaf.run (if condition then yes else no) state =
      if condition then Leaf.run yes state else Leaf.run no state := Prog.run_ite _ _ _ _

theorem run_bind_done {prog : Leaf World α} {next : α → Leaf World β} {state after : Shell World} {value : β} :
    Leaf.run (prog >>= next) state = .done value after ↔
      ∃ middle between, Leaf.run prog state = .done middle between ∧
        Leaf.run (next middle) between = .done value after := Prog.run_bind_done _

theorem run_bind_stopped {prog : Leaf World α} {next : α → Leaf World β} {state after : Shell World} {reason : Ending} :
    Leaf.run (prog >>= next) state = .stopped reason after ↔
      Leaf.run prog state = .stopped reason after ∨
        ∃ middle between, Leaf.run prog state = .done middle between ∧
          Leaf.run (next middle) between = .stopped reason after := Prog.run_bind_stopped _

@[simp] theorem run_gets (read : Shell World → α) : Leaf.run (gets read) state = .done (read state) state := rfl

theorem run_gets_bind (read : Shell World → α) (next : α → Leaf World β) :
    Leaf.run (gets read >>= next) state = Leaf.run (next (read state)) state := rfl

theorem run_bind_of_done {prog : Leaf World α} {next : α → Leaf World β} {state between : Shell World} {value : α}
    (ended : Leaf.run prog state = .done value between) :
    Leaf.run (prog >>= next) state = Leaf.run (next value) between := by
  rw [run_bind, ended, Outcome.andThen_done]

@[simp] theorem run_update (change : Core World → Core World) :
    Leaf.run (update change) state = .done () { state with toCore := change state.toCore } := rfl

@[simp] theorem run_outOfFuel :
    Leaf.run (outOfFuel : Leaf World α) state = .stopped .outOfFuel state := rfl

@[simp] theorem run_abort : Leaf.run (abort : Leaf World α) state = .stopped .aborted state := rfl

@[simp] theorem run_exitProcess (status : Int) :
    Leaf.run (exitProcess status : Leaf World α) state = .stopped (.exited status) state := rfl

end Leaf

namespace Exec

variable {α β : Type} (state : Shell World)

@[simp] theorem run_pure (value : α) : Exec.run (pure value : Exec World α) state = .done value state := rfl

@[simp] theorem run_bind (prog : Exec World α) (next : α → Exec World β) :
    Exec.run (prog >>= next) state = (Exec.run prog state).andThen fun value after => Exec.run (next value) after :=
  Prog.run_bind _ _ _ _

@[simp] theorem run_ite {condition : Prop} [Decidable condition] (yes no : Exec World α) :
    Exec.run (if condition then yes else no) state =
      if condition then Exec.run yes state else Exec.run no state := Prog.run_ite _ _ _ _

theorem run_bind_done {prog : Exec World α} {next : α → Exec World β} {state after : Shell World} {value : β} :
    Exec.run (prog >>= next) state = .done value after ↔
      ∃ middle between, Exec.run prog state = .done middle between ∧
        Exec.run (next middle) between = .done value after := Prog.run_bind_done _

@[simp] theorem run_leaf (prog : Leaf World α) : Exec.run (leaf prog) state = Leaf.run prog state :=
  Prog.run_inl _ _ _ _

theorem run_bind_of_done {prog : Exec World α} {next : α → Exec World β} {state between : Shell World} {value : α}
    (ended : Exec.run prog state = .done value between) :
    Exec.run (prog >>= next) state = Exec.run (next value) between := by
  rw [run_bind, ended, Outcome.andThen_done]

theorem run_leaf_bind_of_done {prog : Leaf World α} {next : α → Exec World β} {state between : Shell World} {value : α}
    (ended : Leaf.run prog state = .done value between) :
    Exec.run (leaf prog >>= next) state = Exec.run (next value) between :=
  run_bind_of_done ((run_leaf state prog).trans ended)

theorem run_gets_bind (read : Shell World → α) (next : α → Exec World β) :
    Exec.run (leaf (gets read) >>= next) state = Exec.run (next (read state)) state := rfl

@[simp] theorem run_control (action : ControlAction) :
    Exec.run (control action) state = .done () (handleControl action state).2 := rfl

end Exec

/-! ## Calls of the system -/

section

def call {α : Type} (request : World → α × World) : Leaf World α :=
  .act .get fun state =>
    .act (.update fun core => { core with world := (request core.world).2 }) fun _ =>
      .pure (request state.world).1

@[simp] theorem Leaf.run_call {α : Type} (request : World → α × World) (state : Shell World) :
    Leaf.run (call request) state =
      .done (request state.world).1 { state with world := (request state.world).2 } := rfl

theorem Leaf.run_call_bind {α β : Type} (request : World → α × World) (next : α → Leaf World β) (state : Shell World) :
    Leaf.run (call request >>= next) state =
      Leaf.run (next (request state.world).1) { state with world := (request state.world).2 } := rfl

def assertThat (condition : Bool) : Leaf World Unit := if condition then pure () else abort

def orCrash {α : Type} (value : Option α) : Leaf World α :=
  match value with
  | some value => pure value
  | none => abort

@[simp] theorem orCrash_some {α : Type} (value : α) : orCrash (some value) = (pure value : Leaf World α) := rfl

theorem orCrash_done {α : Type} {value : Option α} {found : α} {state after : Shell World}
    (ended : Leaf.run (orCrash value) state = .done found after) : value = some found ∧ after = state := by
  cases value with
  | none => cases ended
  | some value =>
      obtain ⟨rfl, rfl⟩ := Outcome.done.inj ended
      exact ⟨rfl, rfl⟩

theorem assertThat_done {condition : Bool} {state after : Shell World}
    (ended : Leaf.run (assertThat condition) state = .done () after) : condition = true ∧ after = state := by
  cases condition with
  | true => exact ⟨rfl, (Outcome.done.inj ended).2.symm⟩
  | false => cases ended

variable [System World]

def printf (text : Str) : Leaf World Unit := call (System.printOut text)

def eprintf (text : Str) : Leaf World Unit := call (System.printErr text)

def strerror (errno : Errno) : Leaf World Str := pure (System.strerror World errno)

def perror (text : Str) (errno : Errno) : Leaf World Unit := do
  let msg ← strerror errno
  eprintf (text ++ ": ".toList ++ msg ++ ['\n'])

end

/-! ## Variables -/

/-- `mrsh_env_get` with the attributes. -/
def mrshEnvGet (key : Str) : Leaf World (Option Variable) := gets (·.vars.get key)

def envValue (key : Str) : Leaf World (Option Str) :=
  gets fun state => (state.vars.get key).map (·.value)

def mrshEnvSet (writer : Writer) (key value : Str) (attribs : Attribs) : Leaf World Unit :=
  .act (.write writer key (some ⟨value, attribs⟩)) .pure

def mrshEnvUnset (writer : Writer) (key : Str) : Leaf World Unit :=
  .act (.write writer key none) .pure

/-- `mrsh_env_set` after the test for READONLY that its caller makes. The result
is whether the variable was set. -/
def envSetChecked (key value : Str) (attribs : Attribs) : Leaf World Bool :=
  .act (.assign key (some ⟨value, attribs⟩)) .pure

/-- `mrsh_env_unset` after the test for READONLY that its caller makes. -/
def envUnsetChecked (key : Str) : Leaf World Bool := .act (.assign key none) .pure

/-! ## Call frames -/

/-- A frame is freed with its arguments, each of which may be freed once only. -/
def argvDestroyable (argv : List ArgSlot) (argc : Int) : Bool :=
  let slots := argv.take argc.toNat
  let numbers : List Nat := slots.filterMap fun
    | .string number _ => some number
    | _ => none
  !slots.contains .freed && decide numbers.Nodup

def pushFrame (args : List Str) : Exec World Unit := control (.push args)

def popFrame : Exec World Unit := do
  let destroyable ← leaf (gets fun state =>
    argvDestroyable state.argv state.argc && !state.callers.isEmpty)
  control .pop
  leaf (assertThat destroyable)

def slotAt (argv : List ArgSlot) (i : Int) : Leaf World (Option Str) :=
  if i < 0 then abort
  else
    match argv[i.toNat]? with
    | some (.string _ str) => pure (some str)
    | some .null => pure none
    | _ => abort

/-- A string of `state->frame->argv`. -/
def frameArg (i : Int) : Leaf World Str := do
  let argv ← gets (·.argv)
  let arg ← slotAt argv i
  orCrash arg

/-! ## Small readers and writers -/

def optionSet (option : ShellOption) : Leaf World Bool := gets (·.options option)

def setOption (option : ShellOption) (value : Bool) : Leaf World Unit :=
  update fun core =>
    { core with options := fun other => if other = option then value else core.options other }

def newSerial : Leaf World Nat := do
  let serial ← gets (·.nextSerial)
  update fun core => { core with nextSerial := core.nextSerial + 1 }
  pure serial

def setLastStatus (status : Int) : Leaf World Unit :=
  update fun core => { core with lastStatus := status }

def setExit (status : Nat) : Leaf World Unit := .act (.setExit status) .pure

/-- `setenv` with overwriting. A name that is empty or has a `=` is refused. -/
def setenvIn (environ : List (Str × Str)) (name value : Str) : List (Str × Str) :=
  if name.isEmpty || '=' ∈ name then environ
  else if name ∈ environ.map Prod.fst then
    environ.map fun entry => if entry.1 = name then (name, value) else entry
  else environ ++ [(name, value)]

def setenv (name value : Str) : Leaf World Unit :=
  update fun core => { core with environ := setenvIn core.environ name value }

end Mrsh
