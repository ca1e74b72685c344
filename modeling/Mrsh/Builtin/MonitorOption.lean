import Mrsh.Builtin.Variables
import Mrsh.Shell.JobFootprint
import Mrsh.Shell.Setup

namespace Mrsh

open Mrsh.Data

/-! # The monitor option and job control

`set` changes the options while it reads its arguments, and switches job control
once it has read them all. An invalid argument leaves the options as they are
then.
-/

/-! ## What the arguments ask for -/

inductive SetEnding where
  | invalid | options | positional
deriving Repr, DecidableEq

/-- The options that are set or unset up to the end or to the first invalid argument. -/
structure SetReading where
  changes : List (ShellOption × Bool)
  ending : SetEnding
deriving Repr, DecidableEq

def SetReading.after (changes : List (ShellOption × Bool)) (reading : SetReading) : SetReading :=
  { reading with changes := changes ++ reading.changes }

/-- The letters of one argument, and whether they all are options. -/
def readShort (value : Bool) : Str → List (ShellOption × Bool) × Bool
  | [] => ([], true)
  | c :: cs =>
      match findOption c with
      | none => ([], false)
      | some option => ((option, value) :: (readShort value cs).1, (readShort value cs).2)

def readSet : List Str → SetReading
  | [] => ⟨[], .options⟩
  | arg :: args =>
      if arg == ['-', '-'] then ⟨[], .positional⟩
      else
        match arg with
        | sign :: flag :: flags =>
            if sign != '-' && sign != '+' then ⟨[], .positional⟩
            else if flag == 'o' then
              match args with
              | [] => ⟨[], .options⟩
              | name :: args =>
                  match findLongOption name with
                  | none => ⟨[], .invalid⟩
                  | some option => (readSet args).after [(option, sign == '-')]
            else if flag == 'c' || flag == 's' then ⟨[], .invalid⟩
            else
              match readShort (sign == '-') (flag :: flags) with
              | (changes, false) => ⟨changes, .invalid⟩
              | (changes, true) => (readSet args).after changes
        | [sign] => if sign != '-' && sign != '+' then ⟨[], .positional⟩ else ⟨[], .invalid⟩
        | [] => ⟨[], .positional⟩

/-- The `monitor` option after the changes. -/
def monitorAfter (changes : List (ShellOption × Bool)) (monitor : Bool) : Bool :=
  changes.foldl (fun monitor change => if change.1 = .monitor then change.2 else monitor) monitor

def changesMonitor (changes : List (ShellOption × Bool)) : Bool := changes.any (·.1 == .monitor)

theorem monitorAfter_untouched {changes : List (ShellOption × Bool)} (untouched : changesMonitor changes = false)
    (monitor : Bool) : monitorAfter changes monitor = monitor := by
  induction changes generalizing monitor with
  | nil => rfl
  | cons change changes ih =>
      rw [changesMonitor, List.any_cons, Bool.or_eq_false_iff] at untouched
      have other : change.1 ≠ .monitor := by simpa using untouched.1
      rw [monitorAfter, List.foldl_cons, if_neg other]
      exact ih untouched.2 monitor

theorem monitorAfter_append (first second : List (ShellOption × Bool)) (monitor : Bool) :
    monitorAfter (first ++ second) monitor = monitorAfter second (monitorAfter first monitor) :=
  List.foldl_append

section

variable {World : Type} [System World]

/-! ## Reading the arguments -/

/-- The changes are made, and nothing else of job control or the arguments. -/
structure MakesChanges (changes : List (ShellOption × Bool)) (before after : Shell World) : Prop where
  monitor : after.options .monitor = monitorAfter changes (before.options .monitor)
  jobControl : after.jobControl = before.jobControl
  argv : after.argv = before.argv

omit [System World] in
theorem MakesChanges.none (state : Shell World) : MakesChanges [] state state := ⟨rfl, rfl, rfl⟩

omit [System World] in
theorem MakesChanges.append {first second : List (ShellOption × Bool)} {before between after : Shell World}
    (makes : MakesChanges first before between) (makesNext : MakesChanges second between after) :
    MakesChanges (first ++ second) before after where
  monitor := by rw [monitorAfter_append, ← makes.monitor, makesNext.monitor]
  jobControl := makesNext.jobControl.trans makes.jobControl
  argv := makesNext.argv.trans makes.argv

omit [System World] in
theorem MakesChanges.call {α : Type} (request : World → α × World) (state : Shell World) :
    MakesChanges [] state { state with world := (request state.world).2 } := ⟨rfl, rfl, rfl⟩

omit [System World] in
theorem setOption_makes (option : ShellOption) (value : Bool) (state : Shell World) :
    ∃ after, Leaf.run (setOption option value) state = .done () after ∧ MakesChanges [(option, value)] state after := by
  refine ⟨_, rfl, ?_, rfl, rfl⟩
  show (if ShellOption.monitor = option then value else state.options .monitor) =
    if option = .monitor then value else state.options .monitor
  simp only [eq_comm]

theorem setShortOptions_makes (value : Bool) (chars : Str) (monitor : Bool) (state : Shell World) :
    ∃ after, Leaf.run (setShortOptions value chars monitor) state =
        .done (if (readShort value chars).2 then some (monitor || changesMonitor (readShort value chars).1) else none)
          after ∧
      MakesChanges (readShort value chars).1 state after := by
  induction chars generalizing monitor state with
  | nil => exact ⟨state, by simp [setShortOptions, readShort, changesMonitor], .none state⟩
  | cons c chars ih =>
      rw [setShortOptions, readShort]
      cases found : findOption c with
      | none => exact ⟨_, rfl, .call _ state⟩
      | some option =>
          obtain ⟨between, set, makes⟩ := setOption_makes option value state
          obtain ⟨after, rest, makesRest⟩ := ih (monitor || option == .monitor) between
          refine ⟨after, ?_, makes.append makesRest⟩
          dsimp only
          rw [Leaf.run_bind_of_done set, rest]
          simp only [changesMonitor, List.any_cons, Bool.or_assoc]

theorem printOptions_makes (options : List (Str × ShellOption)) (state : Shell World) :
    ∃ after, Leaf.run (printOptions options) state = .done () after ∧ MakesChanges [] state after := by
  induction options generalizing state with
  | nil => exact ⟨state, rfl, .none state⟩
  | cons option options ih =>
      obtain ⟨after, rest, makes⟩ := ih { state with world := _ }
      exact ⟨after, rest, (MakesChanges.call _ state).append makes⟩

/-- What the loop of `set` leaves of the arguments. -/
def endsAs : SetEnding → Bool → Option (SetArgs × Bool) → Prop
  | .invalid, _, result => result = none
  | .options, monitor, result => ∃ rest, (rest = .printed ∨ rest = .nothing) ∧ result = some (rest, monitor)
  | .positional, monitor, result => ∃ args, result = some (.positional args, monitor)

theorem setOptions_makes (args : List Str) (monitor : Bool) (state : Shell World) :
    ∃ result after, Leaf.run (setOptions args monitor) state = .done result after ∧
      endsAs (readSet args).ending (monitor || changesMonitor (readSet args).changes) result ∧
      MakesChanges (readSet args).changes state after := by
  fun_induction readSet args generalizing monitor state with
  | case1 => exact ⟨_, state, rfl, ⟨.nothing, .inr rfl, by simp [changesMonitor]⟩, .none state⟩
  | case2 arg args dashes =>
      rw [setOptions.eq_def]
      dsimp only
      rw [if_pos dashes]
      exact ⟨_, state, rfl, ⟨args, by simp [changesMonitor]⟩, .none state⟩
  | case3 args sign flag flags plain notDashes =>
      rw [setOptions.eq_def]
      dsimp only
      rw [if_neg notDashes, if_pos plain]
      exact ⟨_, state, rfl, ⟨(sign :: flag :: flags) :: args, by simp [changesMonitor]⟩, .none state⟩
  | case4 sign flag flags signed named notDashes =>
      obtain ⟨after, printed, makes⟩ := printOptions_makes longOptions state
      rw [setOptions.eq_def]
      dsimp only
      rw [if_neg notDashes, if_neg signed, if_pos named, Leaf.run_bind_of_done printed]
      exact ⟨_, after, rfl, ⟨.printed, .inl rfl, by simp [changesMonitor]⟩, makes⟩
  | case5 sign flag flags signed named name args unknown notDashes =>
      rw [setOptions.eq_def]
      dsimp only
      rw [if_neg notDashes, if_neg signed, if_pos named, unknown]
      exact ⟨_, _, rfl, rfl, .call _ state⟩
  | case6 sign flag flags signed named name args option found notDashes ih =>
      obtain ⟨between, set, makes⟩ := setOption_makes option (sign == '-') state
      obtain ⟨result, after, rest, ends, makesRest⟩ := ih (monitor || option == .monitor) between
      rw [setOptions.eq_def]
      dsimp only
      rw [if_neg notDashes, if_neg signed, if_pos named, found]
      dsimp only
      rw [Leaf.run_bind_of_done set]
      refine ⟨result, after, rest, ?_, makes.append makesRest⟩
      rw [Bool.or_assoc] at ends
      exact ends
  | case7 args sign flag flags signed letter refused notDashes =>
      rw [setOptions.eq_def]
      dsimp only
      rw [if_neg notDashes, if_neg signed, if_neg letter, if_pos refused]
      exact ⟨_, _, rfl, rfl, .call _ state⟩
  | case8 args sign flag flags signed letter accepted changes read notDashes =>
      obtain ⟨after, set, makes⟩ := setShortOptions_makes (sign == '-') (flag :: flags) monitor state
      rw [read] at set makes
      rw [setOptions.eq_def]
      dsimp only
      rw [if_neg notDashes, if_neg signed, if_neg letter, if_neg accepted, Leaf.run_bind_of_done set]
      exact ⟨_, after, rfl, rfl, makes⟩
  | case9 args sign flag flags signed letter accepted changes read notDashes ih =>
      obtain ⟨between, set, makes⟩ := setShortOptions_makes (sign == '-') (flag :: flags) monitor state
      rw [read] at set makes
      obtain ⟨result, after, rest, ends, makesRest⟩ := ih (monitor || changesMonitor changes) between
      rw [setOptions.eq_def]
      dsimp only
      rw [if_neg notDashes, if_neg signed, if_neg letter, if_neg accepted, Leaf.run_bind_of_done set]
      refine ⟨result, after, rest, ?_, makes.append makesRest⟩
      rw [Bool.or_assoc] at ends
      rw [SetReading.after, changesMonitor, List.any_append]
      exact ends
  | case10 args sign plain notDashes =>
      rw [setOptions.eq_def]
      dsimp only
      rw [if_neg notDashes, if_pos plain]
      exact ⟨_, state, rfl, ⟨[sign] :: args, by simp [changesMonitor]⟩, .none state⟩
  | case11 args sign signed notDashes =>
      rw [setOptions.eq_def]
      dsimp only
      rw [if_neg notDashes, if_neg signed]
      exact ⟨_, _, rfl, rfl, .call _ state⟩
  | case12 args notDashes =>
      rw [setOptions.eq_def]
      dsimp only
      rw [if_neg notDashes]
      exact ⟨_, state, rfl, ⟨[] :: args, by simp [changesMonitor]⟩, .none state⟩

/-! ## Switching job control -/

def SameOptions (before after : Shell World) : Prop := after.options = before.options

instance : Std.Refl (SameOptions : Shell World → Shell World → Prop) := ⟨fun _ => rfl⟩

instance : IsTrans (Shell World) SameOptions := ⟨fun _ _ _ first second => second.trans first⟩

theorem sameOptions_allows : AllowsJobControl (SameOptions : Shell World → Shell World → Prop) where
  jobs _ _ _ _ := rfl
  serial _ := rfl
  printErr _ _ := rfl
  setpgid _ _ _ := rfl
  tcsetpgrp _ _ := rfl
  tcgetattr _ := rfl
  tcsetattr _ _ := rfl
  kill _ _ _ := rfl
  traps _ _ _ := rfl
  control _ _ _ _ := rfl
  sigaction _ _ _ := rfl
  getpid _ := rfl
  getpgrp _ := rfl
  getsid _ := rfl
  tcgetpgrp _ := rfl

theorem perrorFalse_done {text : Str} {errno : Errno} {state after : Shell World} {done : Bool}
    (ended : Leaf.run (perrorFalse text errno) state = .done done after) : done = false := by
  obtain ⟨_, _, _, returned⟩ := Leaf.run_bind_done.mp ended
  cases returned
  rfl

theorem grabTerminal_succeeds {pgid : Int} {state after : Shell World}
    (ended : Leaf.run (grabTerminal pgid) state = .done true after) : after.jobControl = true := by
  obtain ⟨grabbed, between, -, ended⟩ := Leaf.run_bind_done.mp ended
  cases grabbed with
  | error errno => cases perrorFalse_done ended
  | ok _ =>
      obtain ⟨modes, last, -, ended⟩ := Leaf.run_bind_done.mp ended
      cases modes with
      | error errno => cases perrorFalse_done ended
      | ok termModes =>
          cases ended
          rfl

theorem mrshSetJobControl_succeeds {fuel : Nat} {enabled : Bool} {state after : Shell World}
    (ended : Leaf.run (mrshSetJobControl fuel enabled) state = .done true after) :
    after.jobControl = enabled ∧ after.options = state.options := by
  refine ⟨?_, (sameOptions_allows.mrshSetJobControl fuel enabled).done ended⟩
  rw [mrshSetJobControl, Leaf.run_gets_bind, Leaf.run_ite, Leaf.run_ite] at ended
  split at ended
  · rename_i already
    cases ended
    simpa using already
  · split at ended
    · rename_i enables
      rw [enables]
      obtain ⟨_, first, -, ended⟩ := Leaf.run_bind_done.mp ended
      obtain ⟨_, second, -, ended⟩ := Leaf.run_bind_done.mp ended
      obtain ⟨pgid, third, -, ended⟩ := Leaf.run_bind_done.mp ended
      obtain ⟨_, fourth, -, ended⟩ := Leaf.run_bind_done.mp ended
      obtain ⟨session, fifth, -, ended⟩ := Leaf.run_bind_done.mp ended
      rw [Leaf.run_ite] at ended
      split at ended
      · obtain ⟨grouped, sixth, -, ended⟩ := Leaf.run_bind_done.mp ended
        cases grouped with
        | error errno => cases perrorFalse_done ended
        | ok _ => exact grabTerminal_succeeds ended
      · exact grabTerminal_succeeds ended
    · rename_i disables
      obtain ⟨_, between, -, ended⟩ := Leaf.run_bind_done.mp ended
      cases ended
      have isFalse : enabled = false := by simpa using disables
      rw [isFalse]
      rfl

/-! ## One invocation -/

/-- `set` ends with a usage error: an argument is invalid, or there are no
parameters to be replaced. -/
def SetFails (args : List Str) (state : Shell World) : Prop :=
  (readSet args).ending = .invalid ∨ (readSet args).ending = .positional ∧ state.argv.isEmpty = true

theorem setPositional_done {args : List Str} {status : Int} {state after : Shell World}
    (ended : Leaf.run (setPositional args) state = .done status after) :
    (status = if state.argv.isEmpty then 1 else 0) ∧ after.options = state.options ∧
      after.jobControl = state.jobControl := by
  rw [setPositional, Leaf.run_gets_bind, Leaf.run_gets_bind, Leaf.run_ite] at ended
  split at ended
  · rename_i missing
    cases ended
    exact ⟨(if_pos missing).symm, rfl, rfl⟩
  · rename_i some
    obtain ⟨argv0, between, read, replaces⟩ := Leaf.run_bind_done.mp ended
    obtain ⟨_, last, asserted, replaced⟩ := Leaf.run_bind_done.mp replaces
    have kept : KeepsSetup state between := (argvStr_talks state.argv 0).leavesSetup.done read
    obtain ⟨-, rfl⟩ := assertThat_done asserted
    cases replaced
    exact ⟨(if_neg some).symm, kept.options, kept.jobControl⟩

theorem printVars_leavesSetup (line : Str) (vars : List (Str × Str)) :
    LeavesSetup (printVars line vars : Leaf World Unit) := by
  induction vars with
  | nil => exact .pure _
  | cons var vars ih => exact .bind (.call _) fun _ => .bind (.call _) fun _ => .bind (.call _) fun _ => ih

theorem setWith_done {args : List Str} {status : Int} {monitor : Bool} {state after : Shell World}
    (ended : Leaf.run (setWith args) state = .done (status, monitor) after) :
    after.options .monitor = monitorAfter (readSet args).changes (state.options .monitor) ∧
      after.jobControl = state.jobControl ∧ (SetFails args state → status ≠ 0) ∧
      (¬ SetFails args state → status = 0 ∧ monitor = changesMonitor (readSet args).changes) := by
  rw [SetFails]
  cases args with
  | nil =>
      obtain ⟨vars, between, collected, prints⟩ := Leaf.run_bind_done.mp ended
      obtain ⟨_, last, printed, returned⟩ := Leaf.run_bind_done.mp prints
      cases collected
      have kept : KeepsSetup state last := (printVars_leavesSetup [] _).done printed
      cases returned
      exact ⟨by rw [kept.options]; rfl, kept.jobControl, by simp [readSet], fun _ => ⟨rfl, rfl⟩⟩
  | cons arg args =>
      obtain ⟨result, between, read, ends, makes⟩ := setOptions_makes (arg :: args) false state
      change Leaf.run (setOptions (arg :: args) false >>= _) state = _ at ended
      rw [Leaf.run_bind_of_done read] at ended
      rw [Bool.false_or] at ends
      cases ending : (readSet (arg :: args)).ending with
      | invalid =>
          rw [ending] at ends
          obtain rfl : result = none := ends
          cases ended
          exact ⟨makes.monitor, makes.jobControl, fun _ => by decide, fun valid => absurd (.inl rfl) valid⟩
      | options =>
          rw [ending] at ends
          obtain ⟨rest, isRest, rfl⟩ := ends
          rcases isRest with rfl | rfl
          · cases ended
            exact ⟨makes.monitor, makes.jobControl, by simp, fun _ => ⟨rfl, rfl⟩⟩
          · cases ended
            exact ⟨makes.monitor, makes.jobControl, by simp, fun _ => ⟨rfl, rfl⟩⟩
      | positional =>
          rw [ending] at ends
          obtain ⟨operands, rfl⟩ := ends
          obtain ⟨code, last, replaced, ended⟩ := Leaf.run_bind_done.mp ended
          cases ended
          obtain ⟨isCode, options, jobControl⟩ := setPositional_done replaced
          rw [makes.argv] at isCode
          refine ⟨by rw [options, makes.monitor], jobControl.trans makes.jobControl, ?_, ?_⟩
          · rintro (invalid | ⟨-, missing⟩)
            · cases invalid
            · rw [isCode, if_pos missing]
              decide
          · intro valid
            have some : ¬ state.argv.isEmpty = true := fun missing => valid (.inr ⟨rfl, missing⟩)
            exact ⟨by rw [isCode, if_neg some], rfl⟩

/-- Job control is on exactly with the option. -/
def ControlMatches (state : Shell World) : Prop := state.options .monitor = state.jobControl

/-- The switch of job control in this invocation, if there is one, succeeds. -/
def ControlSucceeds (fuel : Nat) (args : List Str) (state : Shell World) : Prop :=
  ∀ between done after, Leaf.run (setWith args.tail) state = .done (0, true) between →
    Leaf.run (mrshSetJobControl fuel (between.options .monitor)) between = .done done after → done = true

/-- `set` ends without a usage error, or the option has its value from before when it ends with one. -/
def SetSafe (args : List Str) (state : Shell World) : Prop :=
  ¬ SetFails args.tail state ∨
    monitorAfter (readSet args.tail).changes (state.options .monitor) = state.options .monitor

theorem builtinSet_matches_iff {fuel : Nat} {args : List Str} {status : Int} {state after : Shell World}
    (holds : ControlMatches state) (succeeds : ControlSucceeds fuel args state)
    (ended : Leaf.run (builtinSet fuel args) state = .done status after) :
    ControlMatches after ↔ SetSafe args state := by
  obtain ⟨⟨ret, monitor⟩, between, setting, ended⟩ := Leaf.run_bind_done.mp ended
  obtain ⟨option, jobControl, fails, valid⟩ := setWith_done setting
  by_cases failed : SetFails args.tail state
  · have isError : (ret != 0) = true := by simpa using fails failed
    simp only [isError, if_true] at ended
    cases ended
    rw [ControlMatches, option, jobControl, ← holds, SetSafe]
    simp [failed]
  · obtain ⟨rfl, rfl⟩ := valid failed
    have safe : SetSafe args state := .inl failed
    refine ⟨fun _ => safe, fun _ => ?_⟩
    dsimp only at ended
    rw [if_neg (by decide), Leaf.run_ite] at ended
    split at ended
    · rename_i touched
      rw [touched] at setting
      obtain ⟨enabled, same, asked, switches⟩ := Leaf.run_bind_done.mp ended
      cases asked
      obtain ⟨done, last, switched, returned⟩ := Leaf.run_bind_done.mp switches
      obtain rfl := succeeds between done last setting switched
      cases returned
      obtain ⟨control, options⟩ := mrshSetJobControl_succeeds switched
      rw [ControlMatches, options, control]
      rfl
    · rename_i untouched
      cases ended
      rw [ControlMatches, option, jobControl, ← holds]
      exact monitorAfter_untouched (by simpa using untouched) _

/-! ## Runs -/

structure SetStep (World : Type) where
  args : List Str
  before : Shell World
  after : Shell World

/-- Invocations of `set`, one after the other. What the shell does between them
leaves job control and the option alone. -/
inductive SetRun (fuel : Nat) : Shell World → List (SetStep World) → Prop where
  | nil (state : Shell World) : SetRun fuel state []
  | cons {state before after : Shell World} {args : List Str} {status : Int} {steps : List (SetStep World)}
      (sameOption : before.options .monitor = state.options .monitor)
      (sameControl : before.jobControl = state.jobControl) (succeeds : ControlSucceeds fuel args before)
      (ended : Leaf.run (builtinSet fuel args) before = .done status after) (rest : SetRun fuel after steps) :
      SetRun fuel state (⟨args, before, after⟩ :: steps)

/-- From a state in which job control is on exactly with the option, this holds
after every invocation exactly if none of them changes the option and then ends
with a usage error. -/
theorem setRun_matches_iff {fuel : Nat} {state : Shell World} {steps : List (SetStep World)}
    (run : SetRun fuel state steps) (holds : ControlMatches state) :
    (∀ step ∈ steps, ControlMatches step.after) ↔ ∀ step ∈ steps, SetSafe step.args step.before := by
  induction run with
  | nil state => simp
  | @cons state before after args status steps sameOption sameControl succeeds ended rest ih =>
      have holdsBefore : ControlMatches before := by rw [ControlMatches, sameOption, sameControl, holds]
      have step := builtinSet_matches_iff holdsBefore succeeds ended
      rw [List.forall_mem_cons, List.forall_mem_cons, step]
      exact and_congr_right fun safe => ih (step.mpr safe)

end

/-- A shell with its parameters, with job control and the option or without both. -/
def controllingShell (enabled : Bool) : Shell Machine :=
  let state := mrshStateCreate [] Machine.isolated
  { state with
    argv := stringsArgv ["mrsh".toList]
    argc := 1
    jobControl := enabled
    options := fun option => option == .monitor && enabled }

def stepOf (args : List Str) (before : Shell Machine) : SetStep Machine :=
  ⟨args, before, (Leaf.run (builtinSet 1 args) before).state⟩

/-- `set +m` switches job control off. -/
theorem setRun_matches_off :
    ControlMatches (stepOf ["set".toList, "+m".toList] (controllingShell true)).after := by
  have run : SetRun 1 (controllingShell true) [stepOf ["set".toList, "+m".toList] (controllingShell true)] := by
    refine .cons rfl rfl ?_ rfl (.nil _)
    intro between done after set switched
    cases set
    cases switched
    rfl
  refine (setRun_matches_iff run rfl).mpr (fun step member => ?_) _ List.mem_cons_self
  obtain rfl := List.mem_singleton.mp member
  exact .inl (by rintro (invalid | ⟨positional, -⟩) <;> contradiction)

/-- `set -m -Z` sets the option, and leaves job control off. -/
theorem setRun_not_matches :
    SetRun 1 (controllingShell false) [stepOf ["set".toList, "-m".toList, "-Z".toList] (controllingShell false)] ∧
      ControlMatches (controllingShell false) ∧
      ¬ ControlMatches (stepOf ["set".toList, "-m".toList, "-Z".toList] (controllingShell false)).after := by
  refine ⟨.cons rfl rfl ?_ rfl (.nil _), rfl, fun same => ?_⟩
  · intro between done after set
    cases set
  · cases same

end Mrsh
