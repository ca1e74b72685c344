import Mrsh.Builtin.Getopt
import Mrsh.Shell.Task.Word

namespace Mrsh

open Mrsh.Data

/-! # The builtins for variables and parameters

`export` and `readonly`, `unset`, `read`, `getopts`, `cd`, `pwd`, `set` and
`shift`. The argument vector of a builtin is the list of its strings.
-/

section

variable {World : Type} [System World]

/-! ## Exporting and unsetting -/

def exportUsage (argv0 : Str) : Str := "usage: ".toList ++ argv0 ++ " -p|name[=word]...\n".toList

/-- The attribute that `export` or `readonly` adds. -/
def exportAttrib (argv0 : Str) : Attribs :=
  if argv0 == "readonly".toList then .readonlyOnly else .exportOnly

def hasAttrib (attrib attribs : Attribs) : Bool :=
  (attrib.exported && attribs.exported) || (attrib.readonly && attribs.readonly)

def printVars (line : Str) : List (Str × Str) → Leaf World Unit
  | [] => pure ()
  | (key, value) :: vars => do
      printf (line ++ key ++ ['='])
      printEscaped value
      printf ['\n']
      printVars line vars

/-- The name of an assignment, and its value if there is a `=`. -/
def splitAssignment (arg : Str) : Str × Option Str :=
  (arg.takeWhile (· != '='),
   if '=' ∈ arg then some ((arg.dropWhile (· != '=')).drop 1) else none)

def exportVars (argv0 : Str) (attrib : Attribs) : List Str → Leaf World Int
  | [] => pure 0
  | arg :: args => do
      let (key, val) := splitAssignment arg
      let prev ← mrshEnvGet key
      let prevAttribs := (prev.map (·.attribs)).getD .none
      let val := val.getD ((prev.map (·.value)).getD [])
      let word ← expandTildeWord (mrshWordStringCreate val false) true
      let newVal ← orCrash (mrshWordStr word)
      if ← envSetChecked key newVal (attrib.union prevAttribs) then exportVars argv0 attrib args
      else failWith [argv0, ": cannot modify readonly variable ".toList, key]

def builtinExport (args : List Str) : Leaf World Int := do
  let argv0 := args.headD []
  let attrib := exportAttrib argv0
  match args with
  | [_, ['-', 'p']] => do
      let vars ← collectVars (hasAttrib attrib)
      printVars (argv0 ++ [' ']) vars
      pure 0
  | _ :: name :: names => exportVars argv0 attrib (name :: names)
  | _ => usageError (exportUsage argv0)

def unsetUsage : Str := "usage: unset [-fv] name...\n".toList

def unsetVar (name : Str) : Leaf World Bool := do
  match ← mrshEnvGet name with
  | none => pure true
  | some _ =>
      if ← envUnsetChecked name then pure true
      else do
        eprintf ("unset: cannot modify readonly variable ".toList ++ name ++ ['\n'])
        pure false

def unsetNames (funcs : Bool) : List Str → Leaf World Int
  | [] => pure 0
  | name :: names =>
      if funcs then do
        update fun core => { core with functions := core.functions.del name }
        unsetNames funcs names
      else do
        if ← unsetVar name then unsetNames funcs names else pure 1

def builtinUnset (args : List Str) : Leaf World Int := do
  match ← forOptions args ":fv".toList false fun _ opt =>
      if opt == 'f' then pure (.ok true)
      else if opt == 'v' then pure (.ok false)
      else unknownOption "unset: unknown option -- ".toList unsetUsage with
  | .error status => pure status
  | .ok funcs => do
      let names ← operandsOf args
      if names.isEmpty then usageError unsetUsage else unsetNames funcs names

/-! ## Reading a line -/

def readUsage : Str := "usage: read [-r] var...\n".toList

/-- The line without its newline, and whether the input ended. -/
def readLineChars (raw : Bool) : Nat → Bool → Str → Leaf World (Str × Bool)
  | 0, _, _ => outOfFuel
  | fuel + 1, escaped, buf => do
      match ← call System.fgetc with
      | none => pure (buf, true)
      | some c =>
          if !raw && !escaped && c == '\\' then readLineChars raw fuel true buf
          else if c == '\n' then
            if escaped then do
              let ps2 ← envValue "PS2".toList
              eprintf (ps2.getD "> ".toList)
              readLineChars raw fuel false buf
            else pure (buf, false)
          else readLineChars raw fuel false (buf ++ [c])

/-- Assigns a field to each name, and the fields that are left to the last one. -/
def assignFields : List Str → List Str → Leaf World Unit
  | [], _ => pure ()
  | [name], fields => mrshEnvSet .read name (([' '] : Str).intercalate fields) .none
  | name :: names, fields => do
      mrshEnvSet .read name (fields.headD []) .none
      assignFields names fields.tail

def builtinRead (fuel : Nat) (args : List Str) : Leaf World Int := do
  match ← forOptions args ":r".toList false fun _ opt =>
      if opt == 'r' then pure (.ok true)
      else unknownOption "read: unknown option -- ".toList readUsage with
  | .error status => pure status
  | .ok raw => do
      let names ← operandsOf args
      if names.isEmpty then usageError readUsage
      else do
        let (buf, ended) ← readLineChars raw fuel false []
        let ifs ← envValue "IFS".toList
        let line := buf.takeWhile (· != nul)
        let fields ← orCrash (splitFields (mrshWordStringCreate line false) ifs)
        let strs ← orCrash (getFieldsStr fields)
        assignFields names strs
        pure (if ended then 1 else 0)

/-! ## Parsing positional parameters -/

def getoptsUsage : Str := "usage: getopts optstring name [arg...]\n".toList

/-- Sets or unsets `OPTARG` after a call of `getopt`. -/
def setOptarg (optstring : Str) (opt : Option Char) : Leaf World Unit := do
  let getopt ← gets (·.getopt)
  match getopt.optopt with
  | some optopt =>
      if opt == some ':' then mrshEnvSet .getopts "OPTARG".toList [optopt] .none
      else if optstring.head? != some ':' then mrshEnvUnset .getopts "OPTARG".toList
      else if optopt ∈ optstring then mrshEnvUnset .getopts "OPTARG".toList
      else mrshEnvSet .getopts "OPTARG".toList [optopt] .none
  | none =>
      match getopt.optarg with
      | some optarg => mrshEnvSet .getopts "OPTARG".toList optarg .none
      | none => mrshEnvUnset .getopts "OPTARG".toList

/-- `getopts` with `_mrsh_optind` read from `OPTIND`, for a given argument vector. -/
def getoptsWith (optc : Int) (optv : List ArgSlot) (optstring name : Str) : Leaf World Int := do
  setGetopt fun getopt => { getopt with optopt := none }
  let opt ← mrshGetopt optc optv optstring
  let optind ← gets (·.getopt.optind)
  mrshEnvSet .getopts "OPTIND".toList (decimal optind) .none
  setOptarg optstring opt
  mrshEnvSet .getopts name [opt.getD '?'] .none
  pure (if opt.isNone then 1 else 0)

/-- `getopts` with too few operands. Its name is a NULL pointer. -/
def getoptsWithoutName (optind : Int) : Leaf World Int := do
  setGetopt fun getopt => { getopt with optopt := none, optarg := none }
  mrshEnvSet .getopts "OPTIND".toList (decimal optind) .none
  mrshEnvUnset .getopts "OPTARG".toList
  abort

/-- The value of `OPTIND`, which has to be a positive `int`. -/
def readOptind : Leaf World (Option Int) := do
  match ← envValue "OPTIND".toList with
  | none => do
      eprintf "getopts: OPTIND is not defined\n".toList
      pure none
  | some str => do
      let scanned := strtol 10 str
      if !scanned.rest.isEmpty || scanned.value ≤ 0 || intMax < scanned.value then do
        eprintf "getopts: OPTIND is not a positive integer\n".toList
        pure none
      else pure (some scanned.value)

def builtinGetopts (args : List Str) : Leaf World Int := do
  match ← noOptions args "getopts".toList getoptsUsage with
  | .error status => pure status
  | .ok _ => do
      let operands ← operandsOf args
      if 2 < operands.length then usageError getoptsUsage
      else
        match ← readOptind with
        | none => pure 1
        | some optind => do
            setGetopt fun getopt => { getopt with optind }
            match operands with
            | [optstring, name] => do
                let optc ← gets (·.argc)
                let optv ← gets (·.argv)
                getoptsWith optc optv optstring name
            | _ => getoptsWithoutName optind

/-! ## Directories -/

def cdUsage : Str := "usage: cd [-L|-P] [-|directory]\n".toList

def cd (path : Str) : Leaf World Int := do
  let oldPwd ← envValue "PWD".toList
  match ← call (System.chdir path) with
  | .error errno => do
      let msg ← strerror errno
      failWith ["cd: ".toList, msg]
  | .ok _ =>
      match ← currentWorkingDir with
      | .error errno => do
          perror "current_working_dir failed".toList errno
          pure 1
      | .ok cwd => do
          let oldPwd ← orCrash oldPwd
          mrshEnvSet .cd "OLDPWD".toList oldPwd .none
          mrshEnvSet .cd "PWD".toList cwd .exportOnly
          pure 0

/-- `cd -`. -/
def cdOld : Leaf World Int := do
  let oldpwd ← envValue "OLDPWD".toList
  let pwd ← envValue "PWD".toList
  match pwd, oldpwd with
  | none, _ => failWith ["cd: PWD is not set".toList]
  | some _, none => failWith ["cd: OLDPWD is not set".toList]
  | some pwd, some oldpwd =>
      match ← call (System.chdir oldpwd) with
      | .error errno => do
          let msg ← strerror errno
          failWith ["cd: ".toList, msg]
      | .ok _ => do
          printf (oldpwd ++ ['\n'])
          mrshEnvSet .cd "PWD".toList oldpwd .exportOnly
          mrshEnvSet .cd "OLDPWD".toList pwd .none
          pure 0

/-- The index of the last slash. -/
def lastSlash (str : Str) : Option Nat := (str.zipIdx.filter (·.1 == '/')).getLast?.map Prod.snd

/-- The path for the first element of a list of directories. The slash that is
looked at is the last one of the whole rest of the list, and the colon after the
element already ends the string. -/
def cdpathElement (rest curpath : Str) : Str :=
  let element := rest.takeWhile (· != ':')
  if element.isEmpty then ['.', '/'] ++ curpath
  else
    let atEnd := match lastSlash rest with
      | some i => i + 1 == rest.length || i + 1 == element.length
      | none => false
    element ++ (if atEnd then [] else ['/']) ++ curpath

/-- `S_ISDIR`. -/
def sIsdir (mode : Int) : Bool := mode / 0x1000 % 0x10 == 4

/-- The buffer of `stat` is read even if there is nothing in it. -/
def isdir (path : Str) : Leaf World Bool := do
  match ← call (System.stat path) with
  | .ok mode => pure (sIsdir mode)
  | .error _ => do
      let mode ← call System.indeterminate
      pure (sIsdir mode)

/-- The first path that is taken for a directory, for each element of the list. -/
def cdpathSearch (curpath : Str) : Nat → Str → Leaf World (Option Str)
  | 0, _ => outOfFuel
  | fuel + 1, rest => do
      let path := cdpathElement rest curpath
      if ← isdir path then pure (some path)
      else if ':' ∈ rest then cdpathSearch curpath fuel ((rest.dropWhile (· != ':')).drop 1)
      else pure none

def usesCdpath (curpath : Str) : Bool :=
  curpath.head? != some '/' && !(['.', '/'].isPrefixOf curpath) && !(['.', '.', '/'].isPrefixOf curpath)

def cdTo (curpath : Str) : Leaf World Int := do
  if curpath == ['-'] then cdOld
  else if usesCdpath curpath then
    match ← envValue "CDPATH".toList with
    | none => cd curpath
    | some cdpath =>
        match ← cdpathSearch curpath (cdpath.length + 1) cdpath with
        | some path => cd path
        | none => cd curpath
  else cd curpath

def builtinCd (args : List Str) : Leaf World Int := do
  match ← forOptions args ":LP".toList () fun _ opt =>
      if opt == 'L' || opt == 'P' then do
        eprintf "cd: `-L` and `-P` not yet implemented\n".toList
        pure (.error 1)
      else unknownOption "cd: unknown option -- ".toList cdUsage with
  | .error status => pure status
  | .ok _ => do
      match ← operandsOf args with
      | curpath :: _ => cdTo curpath
      | [] => do
          let home ← envValue "HOME".toList
          if home.any (!·.isEmpty) then cd (home.getD [])
          else failWith ["cd: No arguments were given and $HOME is not defined.".toList]

def pwdUsage : Str := "usage: pwd [-L|-P]\n".toList

def builtinPwd (args : List Str) : Leaf World Int := do
  match ← forOptions args ":LP".toList () fun _ opt =>
      if opt == 'L' || opt == 'P' then pure (.ok ())
      else unknownOption "pwd: unknown option -- ".toList pwdUsage with
  | .error status => pure status
  | .ok _ => do
      let operands ← operandsOf args
      if !operands.isEmpty then usageError pwdUsage
      else do
        let pwd ← envValue "PWD".toList
        let pwd ← orCrash pwd
        printf (pwd ++ ['\n'])
        pure 0

/-! ## Options and positional parameters -/

def setUsage : Str :=
  ("usage: set [(-|+)abCefhmnuvx] [-o option] [args...]\n" ++
    "       set [(-|+)abCefhmnuvx] [+o option] [args...]\n" ++
    "       set -- [args...]\n" ++ "       set -o\n" ++ "       set +o\n").toList

def longOptions : List (Str × ShellOption) :=
  [("allexport".toList, .allexport), ("notify".toList, .notify), ("noclobber".toList, .noclobber),
   ("errexit".toList, .errexit), ("noglob".toList, .noglob), ("monitor".toList, .monitor),
   ("noexec".toList, .noexec), ("ignoreeof".toList, .ignoreeof), ("nolog".toList, .nolog),
   ("vi".toList, .vi), ("nounset".toList, .nounset), ("verbose".toList, .verbose),
   ("xtrace".toList, .xtrace)]

def findOption (opt : Char) : Option ShellOption := shortOptions.lookup opt

def findLongOption (opt : Str) : Option ShellOption := longOptions.lookup opt

def printOptions : List (Str × ShellOption) → Leaf World Unit
  | [] => pure ()
  | (name, option) :: rest => do
      let value ← optionSet option
      printf ("set ".toList ++ [if value then '-' else '+'] ++ "o ".toList ++ name ++ ['\n'])
      printOptions rest

/-- Sets the options of one argument. The result is whether it sets `monitor`,
or `none` for an option that does not exist. -/
def setShortOptions (value : Bool) : Str → Bool → Leaf World (Option Bool)
  | [], monitor => pure (some monitor)
  | c :: cs, monitor => do
      match findOption c with
      | none => do
          eprintf setUsage
          pure none
      | some option => do
          setOption option value
          setShortOptions value cs (monitor || option == .monitor)

/-- What is left of the arguments after the options. -/
inductive SetArgs where
  /-- The options are printed and nothing else is done. -/
  | printed
  | positional (args : List Str)
  | nothing

/-- The loop of `set` over its options, with whether `monitor` was set. -/
def setOptions : List Str → Bool → Leaf World (Option (SetArgs × Bool))
  | [], monitor => pure (some (.nothing, monitor))
  | arg :: args, monitor =>
      if arg == ['-', '-'] then pure (some (.positional args, monitor))
      else
        match arg with
        | sign :: flag :: flags =>
            if sign != '-' && sign != '+' then pure (some (.positional (arg :: args), monitor))
            else if flag == 'o' then
              match args with
              | [] => do
                  printOptions longOptions
                  pure (some (.printed, monitor))
              | name :: args =>
                  match findLongOption name with
                  | none => do
                      eprintf setUsage
                      pure none
                  | some option => do
                      setOption option (sign == '-')
                      setOptions args (monitor || option == .monitor)
            else if flag == 'c' || flag == 's' then do
              eprintf setUsage
              pure none
            else do
              match ← setShortOptions (sign == '-') (flag :: flags) monitor with
              | none => pure none
              | some monitor => setOptions args monitor
        | [sign] =>
            if sign != '-' && sign != '+' then pure (some (.positional (arg :: args), monitor))
            else do
              eprintf setUsage
              pure none
        | [] => pure (some (.positional (arg :: args), monitor))

/-- Replaces the arguments of the current call frame except the first one. -/
def setPositional (args : List Str) : Leaf World Int := do
  let argv ← gets (·.argv)
  let argc ← gets (·.argc)
  if argv.isEmpty then usageError setUsage
  else do
    let argv0 ← argvStr argv 0
    assertThat (argvDestroyable argv argc)
    update fun core => { core with argv := stringsArgv (argv0 :: args), argc := args.length + 1 }
    pure 0

/-- `set` for the builtin, with whether the `monitor` option was set. -/
def setWith (args : List Str) : Leaf World (Int × Bool) := do
  match args with
  | [] => do
      let vars ← collectVars fun _ => true
      printVars [] vars
      pure (0, false)
  | args =>
      match ← setOptions args false with
      | none => pure (1, false)
      | some (.positional args, monitor) => do
          let status ← setPositional args
          pure (status, monitor)
      | some (_, monitor) => pure (0, monitor)

def builtinSet (fuel : Nat) (args : List Str) : Leaf World Int := do
  let (ret, monitor) ← setWith args.tail
  if ret != 0 then pure ret
  else if monitor then do
    let enabled ← optionSet .monitor
    if ← mrshSetJobControl fuel enabled then pure 0 else pure 1
  else pure 0

def shiftUsage : Str := "usage: shift [n]\n".toList

/-- A failure that makes a non-interactive shell exit. -/
def shiftError (msg : Str) : Leaf World Int := do
  eprintf msg
  let interactive ← gets (·.interactive)
  if !interactive then setExit 1
  pure 1

/-- Frees the string of a slot, for every slot that points to it. -/
def freeSlot (argv : List ArgSlot) (i : Nat) : Option (List ArgSlot) :=
  match argv[i]? with
  | some (.string number _) =>
      some (argv.map fun slot =>
        match slot with
        | .string other _ => if other = number then .freed else slot
        | _ => slot)
  | some .null => some argv
  | _ => none

/-- One round of the loop of `shift`. -/
def shiftSlot (argc n : Nat) (argv : List ArgSlot) (i : Nat) : Option (List ArgSlot) :=
  if i + n ≤ argc - n then
    match argv[i + n]? with
    | some slot => some (argv.set i slot)
    | none => none
  else freeSlot argv i

def shiftArgv (argc n : Nat) (argv : List ArgSlot) : Option (List ArgSlot) :=
  ((List.range (argc - n)).drop 1).foldlM (shiftSlot argc n) argv

def shiftBy (n : Int) : Leaf World Int := do
  let argc ← gets (·.argc)
  if n == 0 then pure 0
  else if n < 1 then shiftError "shift: [n] must be positive\n".toList
  else if argc - 1 < n then shiftError "shift: [n] must be less than $#\n".toList
  else do
    let argv ← gets (·.argv)
    let argv ← orCrash (shiftArgv argc.toNat n.toNat argv)
    update fun core => { core with argv, argc := argc - n }
    pure 0

def builtinShift (args : List Str) : Leaf World Int := do
  match args with
  | [_] => shiftBy 1
  | [_, arg] =>
      let scanned := strtol 10 arg
      if !scanned.rest.isEmpty || scanned.outOfRange then shiftError shiftUsage
      else shiftBy (toInt32 scanned.value)
  | _ => usageError shiftUsage

end

end Mrsh
