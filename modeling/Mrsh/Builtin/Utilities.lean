import Mrsh.Builtin.Table
import Mrsh.Shell.Task.Word

namespace Mrsh

open Mrsh.Data

/-! # Builtins for aliases, commands, limits and traps

`alias`, `unalias`, `hash`, `type`, `times`, `ulimit`, `umask`, `trap` and the
builtins that do nothing.
-/

section

variable {World : Type} [System World]

def builtinColon : Leaf World Int := pure 0

def builtinTrue : Leaf World Int := pure 0

def builtinFalse : Leaf World Int := pure 1

def builtinUnspecified (args : List Str) : Leaf World Int := do
  let argv0 := args.headD []
  if ← gets (·.interactive) then
    eprintf (argv0 ++ ": The behavior of this command is undefined.\n".toList)
  else do
    eprintf (argv0 ++ ": The behavior of this command is undefined. ".toList ++
      "This is an error in your script. Aborting.\n".toList)
    setExit 1
  pure 1

/-! ## Aliases -/

def aliasUsage : Str := "usage: alias [alias-name[=string]...]\n".toList

def printAlias (name value : Str) : Leaf World Unit := do
  printf (name ++ ['='])
  printEscaped value
  printf ['\n']

def printAliases : List (Str × Str) → Leaf World Unit
  | [] => pure ()
  | (name, value) :: rest => do
      printAlias name value
      printAliases rest

def aliasOperands (argv0 : Str) : List Str → Leaf World Int
  | [] => pure 0
  | arg :: args => do
      let name := arg.takeWhile (· != '=')
      if '=' ∈ arg then do
        let value := (arg.dropWhile (· != '=')).drop 1
        update fun core => { core with aliases := core.aliases.set name value }
        aliasOperands argv0 args
      else
        match ← gets (·.aliases.get arg) with
        | none => failWith [argv0, ": ".toList, arg, " not found".toList]
        | some value => do
            printAlias arg value
            aliasOperands argv0 args

def builtinAlias (args : List Str) : Leaf World Int := do
  match ← noOptions args "alias".toList aliasUsage with
  | .error status => pure status
  | .ok _ => do
      match ← operandsOf args with
      | [] => do
          let aliases ← gets (·.aliases.entries)
          printAliases aliases
          pure 0
      | operands => aliasOperands (args.headD []) operands

def unaliasUsage : Str := "usage: unalias -a|alias-name...\n".toList

def deleteAliases (names : List Str) : Leaf World Unit :=
  update fun core => { core with aliases := names.foldl (fun aliases name => aliases.del name) core.aliases }

def builtinUnalias (args : List Str) : Leaf World Int := do
  match ← forOptions args ":a".toList false fun _ opt =>
      if opt == 'a' then pure (.ok true)
      else unknownOption "unalias: unknown option -- ".toList unaliasUsage with
  | .error status => pure status
  | .ok all => do
      let names ← operandsOf args
      if all then
        if !names.isEmpty then usageError unaliasUsage
        else do
          let aliases ← gets (·.aliases.entries)
          deleteAliases (aliases.map Prod.fst)
          pure 0
      else if names.isEmpty then usageError unaliasUsage
      else do
        deleteAliases names
        pure 0

/-! ## Finding commands -/

def hashUsage : Str := "usage: hash -r|utility...\n".toList

def hashUtilities : List Str → Leaf World Int
  | [] => pure 0
  | utility :: rest => do
      if '/' ∈ utility then
        failWith ["hash: undefined behaviour: utility contains a slash".toList]
      else if mrshHasBuiltin utility then hashUtilities rest
      else
        match ← expandPath utility true false with
        | none => failWith ["hash: command not found: ".toList, utility]
        | some _ => hashUtilities rest

/-- With the option `-r` nothing else is done. -/
def builtinHash (args : List Str) : Leaf World Int := do
  match ← forOptions args ":r".toList () fun _ opt =>
      if opt == 'r' then pure (.error 0)
      else unknownOption "hash: unknown option -- ".toList hashUsage with
  | .error status => pure status
  | .ok _ => hashUtilities args.tail

def typeUsage : Str := "usage: type name...\n".toList

/-- The line that `type` prints for a name, and whether the name was found. -/
def typeOf (name : Str) : Leaf World (Str × Bool) := do
  match ← gets (·.aliases.get name) with
  | some value => pure (name ++ " is an alias for ".toList ++ value, true)
  | none =>
      if mrshHasSpecialBuiltin name then pure (name ++ " is a special shell builtin".toList, true)
      else if mrshHasBuiltin name then pure (name ++ " is a shell builtin".toList, true)
      else
        match ← expandPath name true false with
        | some path => pure (name ++ " is ".toList ++ path, true)
        | none => pure (name ++ ": not found".toList, false)

def typeNames : List Str → Bool → Leaf World Int
  | [], error => pure (if error then 1 else 0)
  | name :: names, error => do
      let (line, found) ← typeOf name
      printf (line ++ ['\n'])
      typeNames names (error || !found)

def builtinType (args : List Str) : Leaf World Int := do
  match ← noOptions args "type".toList typeUsage with
  | .error status => pure status
  | .ok _ => do
      let names ← operandsOf args
      if names.isEmpty then usageError typeUsage else typeNames names false

/-! ## Times and limits -/

def timesUsage : Str := "usage: times\n".toList

/-- Minutes and seconds of a number of clock ticks. -/
def timeStr (World : Type) [System World] (ticks clkTck : Int) : Str :=
  decimal (toInt32 ((ticks.tdiv clkTck).tdiv 60)) ++ ['m'] ++
    System.formatQuotient World ticks clkTck ++ ['s']

def builtinTimes (args : List Str) : Leaf World Int := do
  if 1 < args.length then usageError timesUsage
  else
    match ← call System.sysconfClkTck with
    | .error errno => do
        perror "sysconf".toList errno
        pure 1
    | .ok clkTck =>
        match ← call System.times with
        | .error errno => do
            perror "times".toList errno
            pure 1
        | .ok (utime, stime, cutime, cstime) => do
            printf (timeStr World utime clkTck ++ [' '] ++ timeStr World stime clkTck ++ ['\n'] ++
              timeStr World cutime clkTck ++ [' '] ++ timeStr World cstime clkTck ++ ['\n'])
            pure 0

def ulimitUsage : Str := "usage: ulimit [-f] [blocks]\n".toList

def setUlimit (arg : Str) : Leaf World Int := do
  let scanned := strtol 10 arg
  if scanned.rest == arg || !scanned.rest.isEmpty then
    failWith ["ulimit: invalid argument: ".toList, arg]
  else
    match ← call (System.setFileLimit (wrapLong (scanned.value * 512))) with
    | .error errno => do
        perror "setrlimit".toList errno
        pure 1
    | .ok _ => pure 0

def printUlimit : Leaf World Int := do
  match ← call System.getFileLimit with
  | .error errno => do
      perror "getrlimit".toList errno
      pure 1
  | .ok none => do
      printf "unlimited\n".toList
      pure 0
  | .ok (some limit) => do
      printf (decimal (limit / 512 : Nat) ++ ['\n'])
      pure 0

def builtinUlimit (args : List Str) : Leaf World Int := do
  match ← forOptions args ":f".toList () fun _ opt =>
      if opt == 'f' then pure (.ok ())
      else do
        eprintf ulimitUsage
        pure (.error 1) with
  | .error status => pure status
  | .ok _ => do
      match ← operandsOf args with
      | [arg] => setUlimit arg
      | [] => printUlimit
      | _ => usageError ulimitUsage

/-! ## The file mode mask -/

def umaskUsage : Str := "usage: umask [-S] [mode]\n".toList

def umaskCurrentMask : Leaf World Nat := do
  let mask ← call (System.umask 0o022)
  let _ ← call (System.umask mask)
  pure mask

/-- The state of `umask_mode` between two characters. `perm` is none while the
users of a clause are read, and the action otherwise. -/
structure UmaskClause where
  mode : Nat
  who : Nat
  perm : Nat
  action : Option Char
deriving Repr, DecidableEq

def complement777 (mask : Nat) : Nat := 0o777 ^^^ (mask &&& 0o777)

/-- `umask_update_mode` for an action that is `+`, `=` or `-`. -/
def umaskUpdateMode (clause : UmaskClause) (action : Char) : UmaskClause :=
  let mode :=
    if action = '+' then clause.mode ||| (clause.who &&& clause.perm)
    else if action = '=' then
      (clause.mode &&& complement777 clause.who) ||| (clause.perm &&& clause.who)
    else clause.mode &&& complement777 (clause.who &&& clause.perm)
  { mode, who := 0, perm := 0, action := none }

def umaskWho (clause : UmaskClause) (c : Char) : Except Str UmaskClause :=
  if c = 'u' then .ok { clause with who := clause.who ||| 0o700 }
  else if c = 'g' then .ok { clause with who := clause.who ||| 0o070 }
  else if c = 'o' then .ok { clause with who := clause.who ||| 0o007 }
  else if c = 'a' then .ok { clause with who := clause.who ||| 0o777 }
  else if c = '+' || c = '-' || c = '=' then
    .ok { clause with who := if clause.who = 0 then 0o777 else clause.who, action := some c }
  else .error ("Unknown who -- '".toList ++ [c] ++ "'\n".toList)

/-- The permissions of one class for all three classes. -/
def copyPerms (perms : Nat) : Nat := perms * 0o111

def umaskPerm (clause : UmaskClause) (action c : Char) : Except Str UmaskClause :=
  if c = 'u' then .ok { clause with perm := copyPerms (clause.mode / 64 % 8) }
  else if c = 'g' then .ok { clause with perm := copyPerms (clause.mode / 8 % 8) }
  else if c = 'o' then .ok { clause with perm := copyPerms (clause.mode % 8) }
  else if c = 'r' then .ok { clause with perm := clause.perm ||| 0o444 }
  else if c = 'w' then .ok { clause with perm := clause.perm ||| 0o222 }
  else if c = 'x' then .ok { clause with perm := clause.perm ||| 0o111 }
  else if c = ',' then .ok (umaskUpdateMode clause action)
  else .error ("Invalid permission -- '".toList ++ [c] ++ "'\n".toList)

def umaskChar (clause : UmaskClause) (c : Char) : Except Str UmaskClause :=
  match clause.action with
  | none => umaskWho clause c
  | some action => umaskPerm clause action c

/-- The new mask for a symbolic mode, or the message of the failure. -/
def umaskMode (mask : Nat) (symbolic : Str) : Except Str Nat :=
  match symbolic.foldlM umaskChar
      { mode := complement777 mask, who := 0, perm := 0, action := none } with
  | .error msg => .error msg
  | .ok clause =>
      match clause.action with
      | none => .error "Missing permission from symbolic mode\n".toList
      | some action => .ok (complement777 (umaskUpdateMode clause action).mode)

/-- The letters for a class, which looks at the bits for others. -/
def umaskModestring (mode : Nat) : Str :=
  (if mode / 4 % 2 = 1 then ['r'] else []) ++ (if mode / 2 % 2 = 1 then ['w'] else []) ++
    (if mode % 2 = 1 then ['x'] else [])

def umaskSymbolic (mask : Nat) : Str :=
  let mode := complement777 mask
  "u=".toList ++ umaskModestring (mode / 64 % 8) ++ ",g=".toList ++
    umaskModestring (mode / 8 % 8) ++ ",o=".toList ++ umaskModestring (mode % 8) ++ ['\n']

/-- An octal number with at least four digits. -/
def octal4 (value : Nat) : Str :=
  let digits := Nat.toDigits 8 value
  List.replicate (4 - digits.length) '0' ++ digits

def builtinUmask (args : List Str) : Leaf World Int := do
  match ← forOptions args ":S".toList false fun _ opt =>
      if opt == 'S' then pure (.ok true)
      else do
        let optopt ← gets (·.getopt.optopt)
        eprintf ("Unknown option -- '".toList ++ [optopt.getD nul] ++ "'\n".toList)
        eprintf umaskUsage
        pure (.error 1) with
  | .error status => pure status
  | .ok symbolic => do
      match ← operandsOf args with
      | [] => do
          let mask ← umaskCurrentMask
          printf (if symbolic then umaskSymbolic mask else octal4 mask ++ ['\n'])
          pure 0
      | mode :: _ => do
          let scanned := strtol 8 mode
          if scanned.rest.isEmpty then do
            let _ ← call (System.umask (scanned.value % 2 ^ 32).toNat)
            pure 0
          else do
            let mask ← umaskCurrentMask
            match umaskMode mask mode with
            | .error msg => do
                eprintf msg
                usageError umaskUsage
            | .ok mask => do
                let _ ← call (System.umask mask)
                pure 0

/-! ## Traps -/

def trapUsage : Str :=
  ("usage: trap <n> [condition...]\n" ++ "       trap [action condition...]\n").toList

def sigNames : List (Str × Nat) :=
  [("HUP", 1), ("INT", 2), ("QUIT", 3), ("ILL", 4), ("TRAP", 5), ("ABRT", 6), ("BUS", 7),
   ("FPE", 8), ("KILL", 9), ("USR1", 10), ("SEGV", 11), ("USR2", 12), ("PIPE", 13), ("ALRM", 14),
   ("TERM", 15), ("CHLD", 17), ("CONT", 18), ("STOP", 19), ("TSTP", 20), ("TTIN", 21),
   ("TTOU", 22), ("URG", 23), ("XCPU", 24), ("XFSZ", 25), ("VTALRM", 26), ("PROF", 27),
   ("POLL", 29), ("SYS", 31)].map fun entry => (entry.1.toList, entry.2)

/-- The signal numbers that are known by the number. -/
def sigNumbers : List (Str × Nat) :=
  [("0", 0), ("EXIT", 0), ("1", 1), ("2", 2), ("3", 3), ("6", 6), ("9", 9), ("14", 14),
   ("15", 15)].map fun entry => (entry.1.toList, entry.2)

def isDecimalStr (str : Str) : Bool := str.all Char.isDigit

def parseSig (str : Str) : Leaf World (Option Nat) := do
  match (sigNumbers ++ sigNames).lookup str with
  | some sig => pure (some sig)
  | none => do
      eprintf ("trap: failed to parse condition: ".toList ++ str ++ ['\n'])
      pure none

/-- The name of a condition, which is undefined where the C function aborts. -/
def sigStr (sig : Nat) : Option Str :=
  if sig = 0 then some "EXIT".toList
  else (sigNames.find? (·.2 == sig)).map Prod.fst

def printTrap (sig : Nat) (trap : Trap) : Leaf World Unit := do
  printf "trap -- ".toList
  match trap.action with
  | .default => printf ['-']
  | .ignore => printf "''".toList
  | .catch => do
      let program ← orCrash trap.program
      let freed ← gets (·.freedPrograms)
      assertThat (!freed.contains program.serial)
      let cmd ← orCrash (formatProgram program.program)
      printEscaped cmd
  let name ← orCrash (sigStr sig)
  printf ([' '] ++ name ++ ['\n'])

def printTraps : List Nat → Leaf World Unit
  | [] => pure ()
  | sig :: rest => do
      let trap ← gets (·.traps sig)
      if trap.set then printTrap sig trap
      printTraps rest

/-- The action for the operand, with its program. A syntax error is a failure. -/
def parseAction (fuel : Nat) (actionStr : Str) :
    Leaf World (Option (TrapAction × Option TrapProgram)) := do
  if actionStr.isEmpty then pure (some (.ignore, none))
  else if actionStr == ['-'] then pure (some (.default, none))
  else do
    let (program, parser) ← parseText actionStr (mrshParseProgram fuel)
    match parser.error with
    | some (msg, pos) => do
        eprintf ("trap: ".toList ++ decimal pos.line ++ [':'] ++ decimal pos.column ++ ": ".toList ++
          msg ++ ['\n'])
        pure none
    | none => do
        let serial ← newSerial
        pure (some (.catch, program.map fun program => ⟨serial, program⟩))

def setTraps (action : TrapAction) (program : Option TrapProgram) : List Str → Leaf World Int
  | [] => pure 0
  | condition :: rest => do
      match ← parseSig condition with
      | none => pure 1
      | some sig =>
          if sig == sigkill || sig == sigstop then
            failWith ["trap: setting a trap for SIGKILL or SIGSTOP produces undefined results".toList]
          else if ← setTrap sig action program then setTraps action program rest
          else pure 1

def builtinTrap (fuel : Nat) (args : List Str) : Leaf World Int := do
  match ← noOptions args "trap".toList trapUsage with
  | .error status => pure status
  | .ok _ => do
      match ← operandsOf args with
      | [] => do
          printTraps (List.range nsig)
          pure 0
      | operand :: rest => do
          let (actionStr, conditions) :=
            if isDecimalStr operand then (['-'], operand :: rest) else (operand, rest)
          match ← parseAction fuel actionStr with
          | none => pure 1
          | some (action, program) => setTraps action program conditions

end

end Mrsh
