import Mrsh.Builtin.PosixOptions
import Mrsh.Builtin.Variables
import Mrsh.Numerals

namespace Mrsh

open Mrsh.Data

/-! # Repeated runs of getopts

What the `getopts` builtin delivers, run after run. It keeps only `OPTIND` between
the runs, so that each run begins with the first letter of a group.
-/

def optindName : Str := "OPTIND".toList

def optargName : Str := "OPTARG".toList

/-- The arguments of a call of `getopts` with the given operands. -/
inductive GivesOperands : List Str → List Str → Prop
  | plain {operand : Str} {rest : List Str} (plain : strChar operand 0 ≠ '-' ∨ strChar operand 1 = nul) :
      GivesOperands ("getopts".toList :: operand :: rest) (operand :: rest)
  | dashes {operands : List Str} : GivesOperands ("getopts".toList :: ['-', '-'] :: operands) operands

section

variable {World : Type} {optstring : Str} {opt : Option Char}

def valueOf (state : Shell World) (key : Str) : Option Str := (state.vars.get key).map (·.value)

/-- The next run of `getopts` scans the positional parameters from the index `j`. -/
structure GetoptsAt (zero : Str) (parameters : List Str) (state : Shell World) (j : Nat) : Prop where
  optind : valueOf state optindName = some (decimal j)
  argv : state.argv = stringsArgv (zero :: parameters)
  argc : state.argc = ((zero :: parameters).length : Int)
  positive : 1 ≤ j
  fits : (j : Int) ≤ intMax

/-- The variables with what `getopts` puts into `OPTARG`. -/
def toldOptarg (vars : Table Variable) (getopt : Getopt) (optstring : Str) (opt : Option Char) : Table Variable :=
  match getopt.optopt with
  | some optopt =>
      if opt == some ':' then vars.set optargName ⟨[optopt], .none⟩
      else if optstring.head? != some ':' then vars.del optargName
      else if optopt ∈ optstring then vars.del optargName
      else vars.set optargName ⟨[optopt], .none⟩
  | none =>
      match getopt.optarg with
      | some optarg => vars.set optargName ⟨optarg, .none⟩
      | none => vars.del optargName

/-- The variables after a run of `getopts` that has scanned an option, or found none. -/
def gotten (vars : Table Variable) (getopt : Getopt) (optstring name : Str) (opt : Option Char) : Table Variable :=
  (toldOptarg (vars.set optindName ⟨decimal getopt.optind, .none⟩) getopt optstring opt).set name ⟨[opt.getD '?'],
    .none⟩

theorem mrshEnvSet_run (writer : Writer) (key value : Str) (attribs : Attribs) (state : Shell World) :
    Leaf.run (mrshEnvSet writer key value attribs) state =
      .done () { state with vars := state.vars.set key ⟨value, attribs⟩ } := rfl

theorem setOptarg_run (state : Shell World) :
    Leaf.run (setOptarg optstring opt) state =
      .done () { state with vars := toldOptarg state.vars state.getopt optstring opt } := by
  unfold setOptarg toldOptarg
  rw [Leaf.run_gets_bind]
  cases state.getopt.optopt with
  | none =>
      cases state.getopt.optarg with
      | none => rfl
      | some optarg => rfl
  | some letter =>
      by_cases missing : (opt == some ':') = true
      · simp only [if_pos missing]
        rfl
      · by_cases loud : (optstring.head? != some ':') = true
        · simp only [if_neg missing, if_pos loud]
          rfl
        · by_cases known : letter ∈ optstring
          · simp only [if_neg missing, if_neg loud, if_pos known]
            rfl
          · simp only [if_neg missing, if_neg loud, if_neg known]
            rfl

end

section

variable {World : Type} [System World] {args operands parameters : List Str} {zero optstring name : Str} {j : Nat}
  {state after : Shell World} {opt : Option Char}

theorem GivesOperands.scanned (gives : GivesOperands args operands) (state : Shell World) :
    ∃ getopt, getopt.optpos = 1 ∧
      Leaf.run (noOptions args "getopts".toList getoptsUsage) state = .done (.ok ()) { state with getopt } ∧
      Leaf.run (operandsOf args) { state with getopt } = .done operands { state with getopt } := by
  cases gives with
  | plain plain => exact ⟨_, rfl, forOptions_plain _ _ _ _ _ plain state, rfl⟩
  | dashes => exact ⟨_, rfl, forOptions_dashes state, rfl⟩

theorem readOptind_decimal (optind : valueOf state optindName = some (decimal j)) (positive : 1 ≤ j)
    (fits : (j : Int) ≤ intMax) : Leaf.run readOptind state = .done (some (j : Int)) state := by
  have read := strtol_decimal j 10 (.inr rfl) (Int.le_trans fits (by decide))
  have found : (state.vars.get "OPTIND".toList).map (·.value) = some (decimal j) := optind
  have nonpositive : ¬ (j : Int) ≤ 0 := by omega
  have small : ¬ intMax < (j : Int) := by omega
  simp only [readOptind, envValue, Leaf.run_bind, Leaf.run_gets, Outcome.andThen_done, found, read, List.isEmpty_nil,
    Bool.not_true, nonpositive, small, decide_false, Bool.or_self, Bool.false_eq_true, if_false, Leaf.run_pure]

theorem getoptsWith_run (name : Str) {optc : Int} {optv : List ArgSlot} {between : Shell World}
    (got : Leaf.run (mrshGetopt optc optv optstring) { state with getopt := { state.getopt with optopt := none } } =
      .done opt between) :
    Leaf.run (getoptsWith optc optv optstring name) state = .done (if opt.isNone then 1 else 0)
      { between with vars := gotten between.vars between.getopt optstring name opt } := by
  simp only [getoptsWith, Leaf.run_bind, setGetopt_run, Outcome.andThen_done, got, Leaf.run_gets, mrshEnvSet_run,
    setOptarg_run, Leaf.run_pure]
  rfl

theorem getoptsWith_done {optc : Int} {optv : List ArgSlot} {status : Int}
    (run : Leaf.run (getoptsWith optc optv optstring name) state = .done status after) :
    ∃ (opt : Option Char) (between : Shell World), status = (if opt.isNone then 1 else 0) ∧
      after = { between with vars := gotten between.vars between.getopt optstring name opt } := by
  obtain ⟨_, started, reset, called⟩ := Leaf.run_bind_done.mp run
  cases reset
  obtain ⟨opt, between, got, -⟩ := Leaf.run_bind_done.mp called
  cases (getoptsWith_run name got).symm.trans run
  exact ⟨opt, between, rfl, rfl⟩

/-- A run with `optstring` and `name` calls `_mrsh_getopt` at the first letter of the parameter. -/
theorem builtinGetopts_run (gives : GivesOperands args [optstring, name])
    (getoptsAt : GetoptsAt zero parameters state j) :
    ∃ getopt, ScanAt { state with getopt } j 1 ∧ ∀ opt between,
      Leaf.run (mrshGetopt (zero :: parameters).length (stringsArgv (zero :: parameters)) optstring)
        { state with getopt } = .done opt between →
      Leaf.run (builtinGetopts args) state = .done (if opt.isNone then 1 else 0)
        { between with vars := gotten between.vars between.getopt optstring name opt } := by
  obtain ⟨getopt, optpos, options, operands⟩ := gives.scanned state
  have positive := getoptsAt.positive
  have nonzero : (j : Int) ≠ 0 := by omega
  have read : Leaf.run readOptind { state with getopt } = .done (some (j : Int)) { state with getopt } :=
    readOptind_decimal getoptsAt.optind positive getoptsAt.fits
  refine ⟨{ getopt with optind := j, optopt := none }, ?_, fun opt between got => ?_⟩
  · exact .of_next (by omega) rfl optpos
  · have few : ¬ 2 < [optstring, name].length := Nat.lt_irrefl 2
    have ran :=
      @getoptsWith_run World _ optstring { state with getopt := { getopt with optind := j } } opt name _ _ between got
    simp only [builtinGetopts, Leaf.run_bind, options, Outcome.andThen_done, operands, if_neg few, read, setGetopt_run,
      Leaf.run_gets]
    rw [← getoptsAt.argv, ← getoptsAt.argc] at ran
    exact ran

theorem builtinGetopts_usage {arg : Str} {explicit : List Str}
    (gives : GivesOperands args (optstring :: name :: arg :: explicit)) (state : Shell World) :
    ∃ getopt world, Leaf.run (builtinGetopts args) state = .done 1 { state with getopt, world } := by
  obtain ⟨getopt, -, options, operands⟩ := gives.scanned state
  have many : 2 < (optstring :: name :: arg :: explicit).length := by
    simp only [List.length_cons]
    omega
  refine ⟨getopt, (System.printErr getoptsUsage state.world).2, ?_⟩
  simp only [builtinGetopts, Leaf.run_bind, options, Outcome.andThen_done, operands, if_pos many, usageError, eprintf,
    Leaf.run_call, Leaf.run_pure]

/-! ## One run -/

theorem get_toldOptarg_other {vars : Table Variable} {getopt : Getopt} {key : Str} (other : key ≠ optargName) :
    (toldOptarg vars getopt optstring opt).get key = vars.get key := by
  unfold toldOptarg
  cases getopt.optopt with
  | none => cases getopt.optarg <;> simp [Hashtable.get_set, Hashtable.get_del, other]
  | some letter =>
      simp only
      split
      · simp [Hashtable.get_set, other]
      · split
        · simp [Hashtable.get_del, other]
        · split
          · simp [Hashtable.get_del, other]
          · simp [Hashtable.get_set, other]

theorem get_toldOptarg {vars : Table Variable} {getopt : Getopt} (noOptopt : getopt.optopt = none) :
    ((toldOptarg vars getopt optstring opt).get optargName).map (·.value) = getopt.optarg := by
  unfold toldOptarg
  rw [noOptopt]
  cases getopt.optarg <;> simp [Hashtable.get_set, Hashtable.get_del]

theorem gotten_name (vars : Table Variable) (getopt : Getopt) (optstring name : Str) (opt : Option Char) :
    ((gotten vars getopt optstring name opt).get name).map (·.value) = some [opt.getD '?'] := by
  simp [gotten, Hashtable.get_set]

theorem gotten_optind {vars : Table Variable} {getopt : Getopt} (other : name ≠ optindName) :
    ((gotten vars getopt optstring name opt).get optindName).map (·.value) = some (decimal getopt.optind) := by
  have apart : optindName ≠ optargName := by decide
  rw [gotten, Hashtable.get_set, if_neg (Ne.symm other), get_toldOptarg_other apart, Hashtable.get_set, if_pos rfl]
  rfl

theorem gotten_optarg {vars : Table Variable} {getopt : Getopt} (noOptopt : getopt.optopt = none) :
    ((gotten vars getopt optstring name opt).get optargName).map (·.value) =
      if name = optargName then some [opt.getD '?'] else getopt.optarg := by
  by_cases same : name = optargName
  · subst same
    simp [gotten, Hashtable.get_set]
  · rw [if_neg same, gotten, Hashtable.get_set, if_neg (Ne.symm same), get_toldOptarg noOptopt]

theorem builtinGetopts_leaves (gives : GivesOperands args [optstring, name])
    (getoptsAt : GetoptsAt zero parameters state j) :
    ∃ start : Shell World, ScanAt start j 1 ∧ ∀ opt between,
      Leaf.run (mrshGetopt (zero :: parameters).length (stringsArgv (zero :: parameters)) optstring) start =
        .done opt between →
      ∃ after, Leaf.run (builtinGetopts args) state = .done (if opt.isNone then 1 else 0) after ∧
        valueOf after name = some [opt.getD '?'] ∧
        (between.getopt.optopt = none → valueOf after optargName =
          if name = optargName then some [opt.getD '?'] else between.getopt.optarg) ∧
        (name ≠ optindName → valueOf after optindName = some (decimal between.getopt.optind)) ∧
        after.argv = state.argv ∧ after.argc = state.argc := by
  obtain ⟨getopt, scanAt, run⟩ := builtinGetopts_run gives getoptsAt
  refine ⟨_, scanAt, fun opt between got => ⟨_, run opt between got, gotten_name .., gotten_optarg, gotten_optind, ?_⟩⟩
  obtain ⟨-, -, world, same⟩ := mrshGetopt_done got
  rw [same]
  exact ⟨rfl, rfl⟩

theorem OptionTaken.bounded {b j' b' : Nat} {c : Char} {optarg : Option Str}
    (takes : OptionTaken optstring args j b c optarg j' b') :
    j' ≤ args.length := by
  have group : ∀ {arg : Str} {i : Nat}, args[i]? = some arg → i < args.length := fun found =>
    (List.getElem?_eq_some_iff.mp found).1
  cases takes with
  | lastFlag at_ => exact group at_.1
  | flag at_ => exact Nat.le_of_lt (group at_.1)
  | attached at_ => exact group at_.1
  | separate _ _ _ next => exact group next

theorem builtinGetopts_takes (gives : GivesOperands args [optstring, name])
    (cStrings : AreCStrings (zero :: parameters)) (fits : ((zero :: parameters).length : Int) ≤ intMax)
    (getoptsAt : GetoptsAt zero parameters state j) {c : Char} {optarg : Option Str} {j' b' : Nat}
    (takes : OptionTaken optstring (zero :: parameters) j 1 c optarg j' b') :
    ∃ after, Leaf.run (builtinGetopts args) state = .done 0 after ∧ valueOf after name = some [c] ∧
      valueOf after optargName = (if name = optargName then some [c] else optarg) ∧
      (name ≠ optindName → GetoptsAt zero parameters after j') := by
  obtain ⟨start, scanAt, leaves⟩ := builtinGetopts_leaves gives getoptsAt
  obtain ⟨between, got, rfl, noOptopt, next⟩ := takes.returned cStrings scanAt
  obtain ⟨after, run, named, told, counted, argv, argc⟩ := leaves _ between got
  have called : GetoptCall (zero :: parameters).length (stringsArgv (zero :: parameters)) optstring start between :=
    ⟨c, got⟩
  refine ⟨after, run, named, told noOptopt, fun other => ?_⟩
  have bounded := takes.bounded
  have positive := next.positive
  have optind : between.getopt.optind = (j' : Int) := called.started_next.1.symm.trans next.1
  exact ⟨optind ▸ counted other, argv.trans getoptsAt.argv, argc.trans getoptsAt.argc, by omega, by omega⟩

theorem builtinGetopts_stops (gives : GivesOperands args [optstring, name])
    (cStrings : AreCStrings (zero :: parameters)) (getoptsAt : GetoptsAt zero parameters state j) {j' : Nat}
    (stops : ScanStops (zero :: parameters) j j') :
    ∃ after, Leaf.run (builtinGetopts args) state = .done 1 after ∧ valueOf after name = some ['?'] ∧
      (name ≠ optindName → valueOf after optindName = some (decimal j')) := by
  obtain ⟨start, scanAt, leaves⟩ := builtinGetopts_leaves gives getoptsAt
  obtain ⟨between, got, optind⟩ := stops.returned optstring cStrings scanAt
  obtain ⟨after, run, named, -, counted, -⟩ := leaves _ between got
  exact ⟨after, run, named, fun other => optind ▸ counted other⟩

/-! ## Runs that stay -/

/-- A run at the parameter `j` leaves `OPTIND` where it is. -/
def Sticks (World : Type) [System World] (optstring : Str) (args : List Str) (j : Nat) : Prop :=
  ∃ c, ∀ start : Shell World, ScanAt start j 1 → ∃ between,
    Leaf.run (mrshGetopt args.length (stringsArgv args) optstring) start = .done (some c) between ∧
      between.getopt.optind = (j : Int)

theorem OptionTaken.sticks {c : Char} {optarg : Option Str} {b' : Nat}
    (takes : OptionTaken optstring args j 1 c optarg j b')
    (cStrings : AreCStrings args) : Sticks World optstring args j := by
  refine ⟨c, fun start scanAt => ?_⟩
  obtain ⟨between, got, -, -, next⟩ := takes.returned cStrings scanAt
  have called : GetoptCall args.length (stringsArgv args) optstring start between := ⟨c, got⟩
  exact ⟨between, got, called.started_next.1.symm.trans next.1⟩

theorem GroupAt.sticks_unknown {arg letters : Str} {c : Char} (group : GroupAt (zero :: parameters) j arg)
    (cStrings : AreCStrings (zero :: parameters)) (left : arg.drop 1 = c :: letters)
    (unknown : findOptionChar c (optionChars optstring) = none) : Sticks World optstring (zero :: parameters) j := by
  refine ⟨'?', fun start scanAt => ?_⟩
  have option := group.option cStrings scanAt (drop_inString left)
  have letter := (scanAt.declared left).trans unknown
  have speaks : Speaks (stringsArgv (zero :: parameters)) optstring := .inr ⟨zero, slotOf_strings_some (i := 0).mpr rfl⟩
  obtain ⟨world, got⟩ := mrshGetopt_scans (slotOf_strings_end _) (.unknown option letter speaks)
  exact ⟨_, got, scanAt.1⟩

theorem GroupAt.sticks_missing {arg : Str} {c : Char} (group : GroupAt (zero :: parameters) j arg)
    (cStrings : AreCStrings (zero :: parameters)) (left : arg.drop 1 = [c])
    (argument : findOptionChar c (optionChars optstring) = some true) (last : (zero :: parameters).length ≤ j + 1) :
    Sticks World optstring (zero :: parameters) j := by
  refine ⟨if optstring.head? == some ':' then ':' else '?', fun start scanAt => ?_⟩
  have option := group.option cStrings scanAt (drop_inString left)
  have letter := (scanAt.declared left).trans argument
  have speaks : Speaks (stringsArgv (zero :: parameters)) optstring := .inr ⟨zero, slotOf_strings_some (i := 0).mpr rfl⟩
  have optind := scanAt.1
  have noRoom : ((zero :: parameters).length : Int) < start.getopt.started.optind + 2 := by omega
  have noMore : strChar arg (start.getopt.started.optpos + 1) = nul := by
    rw [scanAt.2]
    exact strChar_last left
  obtain ⟨world, got⟩ := mrshGetopt_scans (slotOf_strings_end _) (.missing option letter noMore noRoom speaks)
  exact ⟨_, got, optind⟩

/-! ## Run after run -/

/-- What the shell does between two runs leaves `OPTIND` and the positional parameters. -/
structure KeepsScan (meanwhile : Shell World → Shell World) : Prop where
  optind : ∀ state, valueOf (meanwhile state) optindName = valueOf state optindName
  argv : ∀ state, (meanwhile state).argv = state.argv
  argc : ∀ state, (meanwhile state).argc = state.argc

/-- What repeated runs of `getopts` deliver in the named variable, with `OPTARG`, until the status is 1. -/
inductive Gets (args : List Str) (name : Str) (meanwhile : Shell World → Shell World) :
    Shell World → List (Char × Option Str) → Shell World → Prop
  | ended {state after : Shell World} (run : Leaf.run (builtinGetopts args) state = .done 1 after) :
      Gets args name meanwhile state [] after
  | option {state between after : Shell World} {c : Char} {results : List (Char × Option Str)}
      (run : Leaf.run (builtinGetopts args) state = .done 0 between) (named : valueOf between name = some [c])
      (rest : Gets args name meanwhile (meanwhile between) results after) :
      Gets args name meanwhile state ((c, valueOf between optargName) :: results) after

variable {meanwhile : Shell World → Shell World} {results : List (Char × Option Str)}

omit [System World] in
theorem GetoptsAt.kept (getoptsAt : GetoptsAt zero parameters state j) (keeps : KeepsScan meanwhile) :
    GetoptsAt zero parameters (meanwhile state) j :=
  ⟨(keeps.optind state).trans getoptsAt.optind, (keeps.argv state).trans getoptsAt.argv,
    (keeps.argc state).trans getoptsAt.argc, getoptsAt.positive, getoptsAt.fits⟩

theorem Gets.of_ended {last : Shell World} (gets : Gets args name meanwhile state results after)
    (run : Leaf.run (builtinGetopts args) state = .done 1 last) : results = [] ∧ after = last := by
  cases gets with
  | ended run' =>
      cases run.symm.trans run'
      exact ⟨rfl, rfl⟩
  | option run' => cases run.symm.trans run'

theorem Gets.not_sticks (gets : Gets args name meanwhile state results after)
    (gives : GivesOperands args [optstring, name]) (other : name ≠ optindName) (keeps : KeepsScan meanwhile)
    (getoptsAt : GetoptsAt zero parameters state j) (sticks : Sticks World optstring (zero :: parameters) j) :
    False := by
  induction gets with
  | ended run =>
      obtain ⟨c, stays⟩ := sticks
      obtain ⟨start, scanAt, leaves⟩ := builtinGetopts_leaves gives getoptsAt
      obtain ⟨between, got, -⟩ := stays start scanAt
      obtain ⟨_, run', -⟩ := leaves _ between got
      cases run.symm.trans run'
  | option run named rest ih =>
      obtain ⟨c, stays⟩ := sticks
      obtain ⟨start, scanAt, leaves⟩ := builtinGetopts_leaves gives getoptsAt
      obtain ⟨between, got, optind⟩ := stays start scanAt
      obtain ⟨_, run', -, -, counted, argv, argc⟩ := leaves _ between got
      cases run.symm.trans run'
      have again : GetoptsAt zero parameters _ j :=
        ⟨optind ▸ counted other, argv.trans getoptsAt.argv, argc.trans getoptsAt.argc, getoptsAt.positive,
          getoptsAt.fits⟩
      exact ih (again.kept keeps)

theorem optind_of_readOptind_none (none : Leaf.run readOptind state = .done none after) :
    after.vars = state.vars ∧
      ∀ n : Nat, 1 ≤ n → (n : Int) ≤ intMax → valueOf state optindName ≠ some (decimal n) := by
  refine ⟨?_, fun n positive fits optind => ?_⟩
  · simp only [readOptind, envValue, Leaf.run_bind, Leaf.run_gets, Outcome.andThen_done] at none
    split at none
    · cases none
      rfl
    · split at none
      · cases none
        rfl
      · cases none
  · rw [readOptind_decimal optind positive fits] at none
    cases none

/-- A run that delivers in `OPTIND` itself does not leave an index there when it returns 1. -/
theorem optind_not_counted (gives : GivesOperands args [optstring, optindName])
    (run : Leaf.run (builtinGetopts args) state = .done 1 after) {n : Nat} (positive : 1 ≤ n)
    (fits : (n : Int) ≤ intMax) :
    valueOf after optindName ≠ some (decimal n) := by
  obtain ⟨getopt, -, options, operands⟩ := gives.scanned state
  have few : ¬ 2 < [optstring, optindName].length := Nat.lt_irrefl 2
  simp only [builtinGetopts, Leaf.run_bind, options, Outcome.andThen_done, operands, if_neg few] at run
  obtain ⟨read, middle, reads, run⟩ := Outcome.andThen_eq_done.mp run
  cases read with
  | none =>
      cases run
      obtain ⟨vars, invalid⟩ := optind_of_readOptind_none reads
      unfold valueOf
      rw [vars]
      exact invalid n positive fits
  | some optind =>
      simp only [Leaf.run_bind, setGetopt_run, Outcome.andThen_done, Leaf.run_gets] at run
      obtain ⟨opt, between, ended, rfl⟩ := getoptsWith_done run
      cases opt with
      | some c => cases ended
      | none =>
          have named := gotten_name between.vars between.getopt optstring optindName none
          intro counted
          have same : ['?'] = decimal n := Option.some.inj (named.symm.trans counted)
          have digit := decimal_digits n '?' (same ▸ List.mem_cons_self)
          exact absurd digit (by decide)

end

/-! ## The options of a list -/

/-- Each argument with options has a single flag, or an option with its argument. -/
inductive EachAlone (takes : Char → Option Bool) : List Str → Prop
  | ended {later : List Str} (noGroup : NoGroup later) : EachAlone takes later
  | flag {c : Char} {later : List Str} (flag : takes c = some false) (single : c ≠ '-') (rest : EachAlone takes later) :
      EachAlone takes (['-', c] :: later)
  | attached {c : Char} {letters : Str} {later : List Str} (argument : takes c = some true) (single : c ≠ '-')
      (more : letters ≠ []) (rest : EachAlone takes later) : EachAlone takes (('-' :: c :: letters) :: later)
  | separate {c : Char} {arg : Str} {later : List Str} (argument : takes c = some true) (single : c ≠ '-')
      (rest : EachAlone takes later) : EachAlone takes (['-', c] :: arg :: later)

/-- The options that `getopts` knows. -/
def getoptsOption (optstring : Str) : Char → Option Bool := posixOption (optionChars optstring)

/-- A delivered option is told as it is, unless its letter replaces its argument in `OPTARG`. -/
def ToldApart (name : Str) (results : List (Char × Option Str)) : Prop :=
  name = optargName → ∀ result ∈ results, result.2 = some [result.1]

section

variable {optstring : Str} {args : List Str} {later : List Str} {j : Nat} {c : Char}

theorem getoptsOption_found {takes : Bool} (known : getoptsOption optstring c = some takes) :
    findOptionChar c (optionChars optstring) = some takes := by
  unfold getoptsOption posixOption at known
  split at known
  · cases known
  · exact known

theorem single_group {letters : Str} (rest : args.drop j = ('-' :: c :: letters) :: later) (single : c ≠ '-') :
    GroupAt args j ('-' :: c :: letters) := ⟨(drop_cons rest).1, c, letters, rfl, single⟩

theorem OptionTaken.found {b j' b' : Nat} {optarg : Option Str}
    (takes : OptionTaken optstring args j b c optarg j' b') :
    findOptionChar c (optionChars optstring) ≠ none := by
  cases takes with
  | lastFlag _ _ flag => simp [flag]
  | flag _ _ _ flag => simp [flag]
  | attached _ _ _ argument => simp [argument]
  | separate _ _ argument => simp [argument]

end

section

variable {World : Type} [System World] {optstring name zero : Str} {args parameters later operands : List Str} {j : Nat}
  {c : Char} {state after : Shell World} {meanwhile : Shell World → Shell World} {results : List (Char × Option Str)}
  {quiet : Bool}

theorem GroupAt.takes_or_sticks {arg letters : Str} (group : GroupAt (zero :: parameters) j arg)
    (cStrings : AreCStrings (zero :: parameters)) (left : arg.drop 1 = c :: letters) :
    (∃ optarg j' b', OptionTaken optstring (zero :: parameters) j 1 c optarg j' b') ∨
      Sticks World optstring (zero :: parameters) j := by
  cases known : findOptionChar c (optionChars optstring) with
  | none => exact .inr (group.sticks_unknown cStrings left known)
  | some argument =>
      by_cases more : letters = []
      · subst more
        cases argument with
        | false => exact .inl ⟨_, _, _, .lastFlag group left known⟩
        | true =>
            cases next : (zero :: parameters)[j + 1]? with
            | none => exact .inr (group.sticks_missing cStrings left known (List.getElem?_eq_none_iff.mp next))
            | some optarg => exact .inl ⟨_, _, _, .separate group left known next⟩
      · cases argument with
        | false => exact .inl ⟨_, _, _, .flag group left more known⟩
        | true => exact .inl ⟨_, _, _, .attached group left more known⟩

theorem OptionTaken.gets (gives : GivesOperands args [optstring, name]) (cStrings : AreCStrings (zero :: parameters))
    (fits : ((zero :: parameters).length : Int) ≤ intMax) (other : name ≠ optindName) (keeps : KeepsScan meanwhile)
    (getoptsAt : GetoptsAt zero parameters state j) {optarg : Option Str} {j' b' : Nat} {counted : Option Str}
    (takes : OptionTaken optstring (zero :: parameters) j 1 c optarg j' b')
    (told : ToldApart name ((c, optarg) :: results))
    (gets : ∀ between : Shell World, GetoptsAt zero parameters between j' →
      ∃ after, Gets args name meanwhile between results after ∧ valueOf after optindName = counted) :
    ∃ after, Gets args name meanwhile state ((c, optarg) :: results) after ∧
      valueOf after optindName = counted := by
  obtain ⟨between, run, named, toldArg, next⟩ := builtinGetopts_takes gives cStrings fits getoptsAt takes
  obtain ⟨after, rest, ended⟩ := gets _ ((next other).kept keeps)
  have argument : valueOf between optargName = optarg := by
    rw [toldArg]
    by_cases same : name = optargName
    · have letter : optarg = some [c] := told same _ List.mem_cons_self
      rw [if_pos same, letter]
    · rw [if_neg same]
  exact ⟨after, argument ▸ .option run named rest, ended⟩

theorem ToldApart.tail {result : Char × Option Str} (told : ToldApart name (result :: results)) :
    ToldApart name results :=
  fun same other member => told same other (List.mem_cons_of_mem _ member)

/-- Where each option is alone, the runs deliver what the scan gives. -/
theorem EachAlone.gets (alone : EachAlone (getoptsOption optstring) later)
    (reports : Reports (getoptsOption optstring) quiet [] later results operands)
    (gives : GivesOperands args [optstring, name]) (cStrings : AreCStrings (zero :: parameters))
    (fits : ((zero :: parameters).length : Int) ≤ intMax) (other : name ≠ optindName) (told : ToldApart name results)
    (keeps : KeepsScan meanwhile) (getoptsAt : GetoptsAt zero parameters state j)
    (inside : j ≤ (zero :: parameters).length) (rest : (zero :: parameters).drop j = later) :
    ∃ after, Gets args name meanwhile state results after ∧
      valueOf after optindName = some (decimal ((zero :: parameters).length - operands.length : Nat)) := by
  induction alone generalizing state j results with
  | ended noGroup =>
      obtain ⟨rfl, stops, -⟩ := (Left.between (b := 1) inside rest).stops noGroup reports
      obtain ⟨after, run, -, counted⟩ := builtinGetopts_stops gives cStrings getoptsAt stops
      exact ⟨after, .ended run, counted other⟩
  | flag flag single alone ih =>
      obtain ⟨found, behind, inside⟩ := drop_cons rest
      cases reports with
      | terminator => exact absurd rfl single
      | operand plain => exact absurd rfl (plain _ _)
      | group _ reports =>
          cases reports with
          | flag _ reports =>
              have takes : OptionTaken optstring (zero :: parameters) j 1 _ none (j + 1) 1 :=
                .lastFlag (single_group rest single) rfl (getoptsOption_found flag)
              exact takes.gets gives cStrings fits other keeps getoptsAt told fun between next =>
                ih reports told.tail next inside behind
          | attached argument => cases flag.symm.trans argument
          | separate argument => cases flag.symm.trans argument
          | unknown unknown => cases flag.symm.trans unknown
          | missing argument => cases flag.symm.trans argument
  | attached argument single more alone ih =>
      obtain ⟨found, behind, inside⟩ := drop_cons rest
      cases reports with
      | terminator => exact absurd rfl more
      | operand plain => exact absurd rfl (plain _ _)
      | group _ reports =>
          cases reports with
          | flag flag => cases flag.symm.trans argument
          | attached _ _ reports =>
              have takes : OptionTaken optstring (zero :: parameters) j 1 _ (some _) (j + 1) 1 :=
                .attached (single_group rest single) rfl more (getoptsOption_found argument)
              exact takes.gets gives cStrings fits other keeps getoptsAt told fun between next =>
                ih reports told.tail next inside behind
          | separate => exact absurd rfl more
          | unknown unknown => cases argument.symm.trans unknown
          | missing => exact absurd rfl more
  | separate argument single alone ih =>
      obtain ⟨found, behind, inside⟩ := drop_cons rest
      obtain ⟨next, behind, inside⟩ := drop_cons behind
      cases reports with
      | terminator => exact absurd rfl single
      | operand plain => exact absurd rfl (plain _ _)
      | group _ reports =>
          cases reports with
          | flag flag => cases flag.symm.trans argument
          | attached _ more => exact absurd rfl more
          | separate _ reports =>
              have takes : OptionTaken optstring (zero :: parameters) j 1 _ (some _) (j + 2) 1 :=
                .separate (single_group rest single) rfl (getoptsOption_found argument) next
              exact takes.gets gives cStrings fits other keeps getoptsAt told fun between next =>
                ih reports told.tail next inside behind
          | unknown unknown => cases argument.symm.trans unknown

/-- The first of the runs that deliver something delivers the option that is taken. -/
theorem Gets.of_takes {d : Char} {told : Option Str}
    (gets : Gets args name meanwhile state ((d, told) :: results) after)
    (gives : GivesOperands args [optstring, name]) (cStrings : AreCStrings (zero :: parameters))
    (fits : ((zero :: parameters).length : Int) ≤ intMax) (other : name ≠ optindName) (keeps : KeepsScan meanwhile)
    (getoptsAt : GetoptsAt zero parameters state j) {optarg : Option Str} {j' b' : Nat}
    (takes : OptionTaken optstring (zero :: parameters) j 1 c optarg j' b') :
    d = c ∧ (name = optargName → told = some [c]) ∧
      ∃ between, GetoptsAt zero parameters between j' ∧ Gets args name meanwhile between results after := by
  obtain ⟨between, run, named, toldArg, next⟩ := builtinGetopts_takes gives cStrings fits getoptsAt takes
  cases gets with
  | option run' named' rest =>
      cases run.symm.trans run'
      have same := named.symm.trans named'
      simp only [Option.some.injEq, List.cons.injEq, and_true] at same
      exact ⟨same.symm, fun same => by rw [toldArg, if_pos same], _, (next other).kept keeps, rest⟩

/-- Where the runs deliver what the scan gives, each option is alone. -/
theorem Gets.eachAlone (gets : Gets args name meanwhile state results after)
    (reports : Reports (getoptsOption optstring) quiet [] later results operands)
    (gives : GivesOperands args [optstring, name]) (cStrings : AreCStrings (zero :: parameters))
    (fits : ((zero :: parameters).length : Int) ≤ intMax) (other : name ≠ optindName) (keeps : KeepsScan meanwhile)
    (getoptsAt : GetoptsAt zero parameters state j) (rest : (zero :: parameters).drop j = later) :
    EachAlone (getoptsOption optstring) later ∧ ToldApart name results := by
  have apart : ∀ {d : Char} {told : Option Str} {results : List (Char × Option Str)},
      (name = optargName → told = some [d]) → ToldApart name results → ToldApart name ((d, told) :: results) := by
    intro d told results first others same result member
    rcases List.mem_cons.mp member with rfl | member
    · exact first same
    · exact others same result member
  induction results generalizing state j later with
  | nil =>
      refine ⟨?_, fun _ _ member => nomatch member⟩
      cases reports with
      | finished => exact .ended noGroup_nil
      | terminator => exact .ended (noGroup_terminator _)
      | operand plain => exact .ended (noGroup_operand plain _)
      | group _ reports => exact absurd rfl (reports.results_of_letters (List.cons_ne_nil _ _))
  | cons result results ih =>
      obtain ⟨d, told⟩ := result
      cases reports with
      | @group c letters later _ _ notEnd reports =>
          obtain ⟨found, behind, -⟩ := drop_cons rest
          by_cases double : c = '-'
          · subst double
            obtain ⟨_, run, -⟩ := builtinGetopts_stops gives cStrings getoptsAt (.dashes found)
            cases (gets.of_ended run).1
          · have group := single_group rest double
            cases reports with
            | flag flag reports =>
                by_cases more : letters = []
                · subst more
                  have takes : OptionTaken optstring (zero :: parameters) j 1 d none (j + 1) 1 :=
                    .lastFlag group rfl (getoptsOption_found flag)
                  obtain ⟨-, argument, between, next, gets⟩ :=
                    gets.of_takes gives cStrings fits other keeps getoptsAt takes
                  obtain ⟨alone, others⟩ := ih gets reports next behind
                  exact ⟨.flag flag double alone, apart argument others⟩
                · have takes : OptionTaken optstring (zero :: parameters) j 1 d none j 2 :=
                    .flag group rfl more (getoptsOption_found flag)
                  exact (gets.not_sticks gives other keeps getoptsAt (takes.sticks cStrings)).elim
            | attached argument more reports =>
                have takes : OptionTaken optstring (zero :: parameters) j 1 d (some letters) (j + 1) 1 :=
                  .attached group rfl more (getoptsOption_found argument)
                obtain ⟨-, told, between, next, gets⟩ := gets.of_takes gives cStrings fits other keeps getoptsAt takes
                obtain ⟨alone, others⟩ := ih gets reports next behind
                exact ⟨.attached argument double more alone, apart told others⟩
            | separate argument reports =>
                obtain ⟨next, behind, -⟩ := drop_cons behind
                have takes : OptionTaken optstring (zero :: parameters) j 1 d (some _) (j + 2) 1 :=
                  .separate group rfl (getoptsOption_found argument) next
                obtain ⟨-, told, between, next, gets⟩ := gets.of_takes gives cStrings fits other keeps getoptsAt takes
                obtain ⟨alone, others⟩ := ih gets reports next behind
                exact ⟨.separate argument double alone, apart told others⟩
            | unknown unknown reports =>
                have either : (∃ optarg j' b', OptionTaken optstring (zero :: parameters) j 1 _ optarg j' b') ∨
                    Sticks World optstring (zero :: parameters) j := group.takes_or_sticks cStrings rfl
                rcases either with ⟨optarg, j', b', takes⟩ | sticks
                · obtain ⟨rfl, -⟩ := gets.of_takes gives cStrings fits other keeps getoptsAt takes
                  exact absurd unknown takes.found
                · exact (gets.not_sticks gives other keeps getoptsAt sticks).elim
            | missing argument =>
                have last := List.drop_eq_nil_iff.mp behind
                have sticks : Sticks World optstring (zero :: parameters) j :=
                  group.sticks_missing cStrings rfl (getoptsOption_found argument) last
                exact (gets.not_sticks gives other keeps getoptsAt sticks).elim

theorem Gets.optind_not_counted (gets : Gets args optindName meanwhile state results after)
    (gives : GivesOperands args [optstring, optindName]) {n : Nat} (positive : 1 ≤ n) (fits : (n : Int) ≤ intMax) :
    valueOf after optindName ≠ some (decimal n) := by
  induction gets with
  | ended run => exact Mrsh.optind_not_counted gives run positive fits
  | option _ _ _ ih => exact ih

/-- For every list of arguments, repeated runs of `getopts` deliver its options and count to the first
operand if and only if the list is that of the positional parameters, each option is alone in its argument
and the name is not `OPTIND`, nor `OPTARG` where an option has another argument than its own letter. A list
behind the name counts to the first operand only where it begins with it. -/
theorem getopts_delivers_iff {explicit : List Str} (gives : GivesOperands args (optstring :: name :: explicit))
    (cStrings : AreCStrings (zero :: parameters)) (fits : ((zero :: parameters).length : Int) ≤ intMax)
    (keeps : KeepsScan meanwhile) (start : GetoptsAt zero parameters state 1)
    (reports : Reports (getoptsOption optstring) (optstring.head? == some ':') []
      (if explicit.isEmpty then parameters else explicit) results operands) :
    (∃ after, Gets args name meanwhile state results after ∧ valueOf after optindName =
      some (decimal ((if explicit.isEmpty then parameters else explicit).length + 1 - operands.length : Nat))) ↔
      (if explicit.isEmpty then
        EachAlone (getoptsOption optstring) parameters ∧ name ≠ optindName ∧ ToldApart name results
      else operands = explicit) := by
  rcases explicit with _ | ⟨arg, explicit⟩
  · simp only [List.isEmpty_nil, if_true] at reports ⊢
    constructor
    · rintro ⟨after, gets, counted⟩
      have other : name ≠ optindName := by
        rintro rfl
        have few := reports.operands_suffix.length_le
        simp only [List.length_cons] at fits
        exact gets.optind_not_counted gives (by omega) (by omega) counted
      obtain ⟨alone, told⟩ := gets.eachAlone reports gives cStrings fits other keeps start rfl
      exact ⟨alone, other, told⟩
    · rintro ⟨alone, other, told⟩
      exact alone.gets reports gives cStrings fits other told keeps start (Nat.le_add_left _ _) rfl
  · simp only [List.isEmpty_cons, Bool.false_eq_true, if_false] at reports ⊢
    obtain ⟨getopt, world, run⟩ := builtinGetopts_usage gives state
    constructor
    · rintro ⟨after, gets, counted⟩
      obtain ⟨-, rfl⟩ := gets.of_ended run
      have same := Int.ofNat.inj (decimal_injective (Option.some.inj (start.optind.symm.trans counted)))
      have suffix := reports.operands_suffix
      have few := suffix.length_le
      exact suffix.eq_of_length (by omega)
    · rintro rfl
      obtain rfl := reports.results_nil
      refine ⟨_, .ended run, start.optind.trans ?_⟩
      rw [Nat.add_sub_cancel_left]

end

/-- A new shell with positional parameters. -/
def shellWithParameters (parameters : List Str) : Shell Machine :=
  { mrshStateCreate [] Machine.isolated with
    argv := stringsArgv ("mrsh".toList :: parameters)
    argc := ("mrsh".toList :: parameters).length
    vars := Hashtable.empty.set optindName ⟨['1'], .none⟩ }

theorem shellWithParameters_getoptsAt (parameters : List Str) :
    GetoptsAt "mrsh".toList parameters (shellWithParameters parameters) 1 := ⟨rfl, rfl, rfl, Nat.le_refl 1, by decide⟩

theorem keepsScan_id : KeepsScan (id : Shell Machine → Shell Machine) := ⟨fun _ => rfl, fun _ => rfl, fun _ => rfl⟩

theorem getopts_delivers_flag : ∃ after : Shell Machine,
    Gets ["getopts".toList, "ab:".toList, "opt".toList] "opt".toList id
      (shellWithParameters ["-a".toList, "-bX".toList, "op".toList]) [('a', none), ('b', some ['X'])] after ∧
      valueOf after optindName = some ['3'] := by
  have reports : Reports (getoptsOption "ab:".toList) false [] ["-a".toList, "-bX".toList, "op".toList]
      [('a', none), ('b', some ['X'])] ["op".toList] :=
    .group (by decide) (.flag rfl (.group (by decide) (.attached rfl (by decide) (.operand fun c letters same => by
      cases same))))
  have alone : EachAlone (getoptsOption "ab:".toList) ["-a".toList, "-bX".toList, "op".toList] :=
    .flag rfl (by decide) (.attached rfl (by decide) (by decide) (.ended (noGroup_operand (fun c letters same => by
      cases same) _)))
  have cStrings : AreCStrings ["mrsh".toList, "-a".toList, "-bX".toList, "op".toList] := by
    unfold AreCStrings
    decide
  have gives : GivesOperands ["getopts".toList, "ab:".toList, "opt".toList] ["ab:".toList, "opt".toList] :=
    .plain (.inl (by decide))
  exact (getopts_delivers_iff gives cStrings (by decide) keepsScan_id (shellWithParameters_getoptsAt _) reports).mpr
    ⟨alone, by decide, fun same => absurd same (by decide)⟩

/-- `getopts ab opt` never comes to the second option of `-ab`, and `getopts a opt -a` delivers no option. -/
theorem getopts_misses_options :
    (Reports (getoptsOption "ab".toList) false [] ["-ab".toList] [('a', none), ('b', none)] [] ∧
      ¬ ∃ after, Gets ["getopts".toList, "ab".toList, "opt".toList] "opt".toList id
        (shellWithParameters ["-ab".toList]) [('a', none), ('b', none)] after) ∧
    (Reports (getoptsOption "a".toList) false [] ["-a".toList] [('a', none)] [] ∧
      ¬ ∃ after, Gets ["getopts".toList, "a".toList, "opt".toList, "-a".toList] "opt".toList id
        (shellWithParameters []) [('a', none)] after) := by
  refine ⟨⟨.group (by decide) (.flag rfl (.flag rfl .finished)), ?_⟩, .group (by decide) (.flag rfl .finished), ?_⟩
  · rintro ⟨after, gets⟩
    have cStrings : AreCStrings ["mrsh".toList, "-ab".toList] := by
      unfold AreCStrings
      decide
    have group : GroupAt ["mrsh".toList, "-ab".toList] 1 "-ab".toList := ⟨rfl, 'a', ['b'], rfl, by decide⟩
    have takes : OptionTaken "ab".toList ["mrsh".toList, "-ab".toList] 1 1 'a' none 1 2 :=
      .flag group rfl (by decide) rfl
    exact gets.not_sticks (.plain (.inl (by decide))) (by decide) keepsScan_id (shellWithParameters_getoptsAt _)
      (takes.sticks cStrings)
  · rintro ⟨after, gets⟩
    have gives : GivesOperands ["getopts".toList, "a".toList, "opt".toList, "-a".toList]
        ["a".toList, "opt".toList, "-a".toList] := .plain (.inl (by decide))
    obtain ⟨_, _, run⟩ := builtinGetopts_usage gives (shellWithParameters [])
    cases (gets.of_ended run).1

end Mrsh
