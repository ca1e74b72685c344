import Mrsh.Shell.State

namespace Mrsh

open Mrsh.Data

/-! # Options of the builtins

The function of `getopt.c`, the loops that the builtins call it in, and the
printing functions that they share.
-/

def nul : Char := '\x00'

/-- The character of a C string, which ends with a NUL. -/
def strChar (str : Str) (i : Nat) : Char := str.getD i nul

/-- The declared option, and whether it takes an argument. -/
def findOptionChar (opt : Char) : Str → Option Bool
  | [] => none
  | c :: rest => if c = opt then some (rest.head? == some ':') else findOptionChar opt rest

def optionChars (optstring : Str) : Str :=
  match optstring with
  | ':' :: rest => rest
  | _ => optstring

section

variable {World : Type}

def setGetopt (change : Getopt → Getopt) : Leaf World Unit :=
  update fun core => { core with getopt := change core.getopt }

/-- A string of an argument vector. -/
def argvStr (argv : List ArgSlot) (i : Int) : Leaf World Str := do
  let arg ← slotAt argv i
  orCrash arg

variable [System World]

def getoptMessage (argv : List ArgSlot) (optstring : Str) (opt : Char) (msg : Str) :
    Leaf World Unit := do
  if optstring.head? == some ':' then pure ()
  else do
    let argv0 ← argvStr argv 0
    eprintf (argv0 ++ ": Option '".toList ++ [opt] ++ "' ".toList ++ msg ++ ".\n".toList)

/-- An option that takes an argument, which is the rest of `arg` or the next one. -/
def getoptArgument (argc : Int) (argv : List ArgSlot) (optstring : Str) (opt : Char) (arg : Str) :
    Leaf World (Option Char) := do
  let getopt ← gets (·.getopt)
  if strChar arg (getopt.optpos + 1) != nul then do
    setGetopt fun getopt =>
      { getopt with optarg := some (arg.drop (getopt.optpos + 1)), optind := getopt.optind + 1 }
    pure (some opt)
  else if argc < getopt.optind + 2 then do
    setGetopt fun getopt => { getopt with optopt := some opt }
    getoptMessage argv optstring opt "requires an argument".toList
    pure (some (if optstring.head? == some ':' then ':' else '?'))
  else do
    let optarg ← slotAt argv (getopt.optind + 1)
    setGetopt fun getopt => { getopt with optarg, optind := getopt.optind + 2 }
    pure (some opt)

/-- The option at the current position of `arg`. -/
def getoptOption (argc : Int) (argv : List ArgSlot) (optstring : Str) (arg : Str) :
    Leaf World (Option Char) := do
  setGetopt fun getopt => { getopt with optopt := none }
  let optpos ← gets (·.getopt.optpos)
  assertThat (optpos ≤ arg.length)
  let opt := strChar arg optpos
  match findOptionChar opt (optionChars optstring) with
  | none => do
      getoptMessage argv optstring opt "not found".toList
      pure (some '?')
  | some false => do
      setGetopt fun getopt =>
        if strChar arg (optpos + 1) = nul then { getopt with optind := getopt.optind + 1, optpos := 1 }
        else { getopt with optpos := optpos + 1 }
      pure (some opt)
  | some true => getoptArgument argc argv optstring opt arg

/-- `_mrsh_getopt`, whose result -1 is `none`. -/
def mrshGetopt (argc : Int) (argv : List ArgSlot) (optstring : Str) : Leaf World (Option Char) := do
  let last ← slotAt argv argc
  assertThat last.isNone
  setGetopt fun getopt =>
    if getopt.optind = 0 then { getopt with optarg := none, optind := 1, optpos := 1 }
    else { getopt with optarg := none }
  let optind ← gets (·.getopt.optind)
  if argc ≤ optind then pure none
  else do
    let arg ← argvStr argv optind
    if strChar arg 0 != '-' || strChar arg 1 == nul then pure none
    else if strChar arg 1 == '-' then do
      setGetopt fun getopt => { getopt with optind := getopt.optind + 1 }
      pure none
    else getoptOption argc argv optstring arg

/-! ## The option loops -/

def resetOptind : Leaf World Unit := setGetopt fun getopt => { getopt with optind := 0 }

/-- Calls `step` for each option until there are no more. A step may end the
builtin with a status. -/
def optionLoop {β : Type} (args : List Str) (optstring : Str)
    (step : β → Char → Leaf World (Except Int β)) : Nat → β → Leaf World (Except Int β)
  | 0, _ => outOfFuel
  | fuel + 1, value => do
      match ← mrshGetopt args.length (stringsArgv args) optstring with
      | none => pure (.ok value)
      | some opt =>
          match ← step value opt with
          | .error status => pure (.error status)
          | .ok value => optionLoop args optstring step fuel value

/-- Every call of `getopt` in the loop reads a character. -/
def forOptions {β : Type} (args : List Str) (optstring : Str) (value : β)
    (step : β → Char → Leaf World (Except Int β)) : Leaf World (Except Int β) := do
  resetOptind
  optionLoop args optstring step (args.flatten.length + 1) value

/-- The message for an option that a builtin does not have. -/
def unknownOption {β : Type} (text usage : Str) : Leaf World (Except Int β) := do
  let optopt ← gets (·.getopt.optopt)
  eprintf (text ++ [optopt.getD nul] ++ ['\n'])
  eprintf usage
  pure (.error 1)

/-- The options of a builtin that has none. -/
def noOptions (args : List Str) (name usage : Str) : Leaf World (Except Int Unit) :=
  forOptions args [':'] () fun _ _ => unknownOption (name ++ ": unknown option -- ".toList) usage

/-- The operands, which start at `_mrsh_optind`. -/
def operandsOf (args : List Str) : Leaf World (List Str) := do
  let optind ← gets (·.getopt.optind)
  pure (args.drop optind.toNat)

def usageError (usage : Str) : Leaf World Int := do
  eprintf usage
  pure 1

/-- A message on standard error, and the status 1. -/
def failWith (parts : List Str) : Leaf World Int := do
  eprintf (parts.flatten ++ ['\n'])
  pure 1

/-! ## Printing -/

def isSafeChar (c : Char) : Bool := c.isAlphanum || "@%+=:,./-".toList.contains c

def escapeChar (c : Char) : Str := if c = '\'' then "'\"'\"'".toList else [c]

/-- The text that `print_escaped` prints. -/
def escaped (value : Str) : Str :=
  if value.all isSafeChar && !value.isEmpty then value
  else ['\''] ++ value.flatMap escapeChar ++ ['\'']

def printEscaped (value : Str) : Leaf World Unit := printf (escaped value)

/-- The order of `strcmp`. -/
def strLe : Str → Str → Bool
  | [], _ => true
  | _ :: _, [] => false
  | c :: cs, d :: ds => if c = d then strLe cs ds else c.toNat < d.toNat

/-- `collect_vars`: the variables with an attribute, sorted by their names. -/
def collectVars (selected : Attribs → Bool) : Leaf World (List (Str × Str)) :=
  gets fun state =>
    ((state.vars.entries.filter fun entry => selected entry.2.attribs).map fun entry =>
      (entry.1, entry.2.value)).mergeSort fun first second => strLe first.1 second.1

end

end Mrsh
