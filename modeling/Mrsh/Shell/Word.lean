import Mrsh.Text

namespace Mrsh

/-! # Tilde expansion, field splitting and patterns

The functions of `shell/word.c` that only read the shell state through `HOME`
and the user database. A result `none` is a call of `abort`.
-/

/-- `mrsh_word_string_create`. -/
def mrshWordStringCreate (str : Str) (singleQuoted : Bool) : Word :=
  .string str singleQuoted false .invalid

/-- `mrsh_word_list_create`. -/
def mrshWordListCreate (children : List Word) (doubleQuoted : Bool) : Word :=
  .list children doubleQuoted .invalid .invalid

/-! ## Tilde expansion -/

def isLognameChar (c : Char) : Bool :=
  c.isUpper || c.isLower || c.isDigit || c == '.' || c == '_' || c == '-'

section

variable (home : Option Str) (getpwnam : Str → Option Str)

/-- The directory and the length of the tilde-prefix it replaces. -/
def expandTildeAt (str : Str) (last : Bool) : Option (Str × Nat) :=
  match str with
  | '~' :: rest =>
      let name := rest.takeWhile (· != '/')
      if name.all isLognameChar then
        if name.length == rest.length && !last then none
        else do
          let dir ← if name.isEmpty then home else getpwnam name
          some (dir, name.length + 1)
      else none
  | _ => none

/-- The loop over the colons of an assignment value. It returns the words
before the last colon and the text that is left. -/
def expandTildeColons (last : Bool) : Nat → Str → List Word × Str
  | 0, str => ([], str)
  | fuel + 1, str =>
      if ':' ∈ str then
        let slice := str.takeWhile (· != ':') ++ [':']
        let str := str.drop slice.length
        let (expanded, str) := match expandTildeAt home getpwnam str last with
          | some (dir, offset) => ([mrshWordStringCreate dir true], str.drop offset)
          | none => ([], str)
        let (words, str) := expandTildeColons last fuel str
        (mrshWordStringCreate slice false :: expanded ++ words, str)
      else ([], str)

mutual

/-- `_expand_tilde`. -/
def expandTildeIn (assignment first last : Bool) : Word → Word
  | .string str false splitFields range =>
      let (words, rest) := match if first then expandTildeAt home getpwnam str last else none with
        | some (dir, offset) => ([mrshWordStringCreate dir true], str.drop offset)
        | none => ([], str)
      let (colons, rest) := if assignment then
          expandTildeColons home getpwnam last (rest.length + 1) rest
        else ([], rest)
      let words := words ++ colons
      if words.isEmpty then .string str false splitFields range
      else mrshWordListCreate (words ++ [mrshWordStringCreate rest false]) false
  | .list children false lquotePos rquotePos =>
      .list (expandTildeChildren assignment first last children) false lquotePos rquotePos
  | word => word

def expandTildeChildren (assignment first last : Bool) : List Word → List Word
  | [] => []
  | child :: children =>
      expandTildeIn assignment first (last && children.isEmpty) child ::
        expandTildeChildren assignment false last children

end

def expandTilde (word : Word) (assignment : Bool) : Word :=
  expandTildeIn home getpwnam assignment true true word

end

/-! ## Field splitting -/

/-- The fields that are complete and the children of the one that is not. -/
structure SplitFieldsData where
  fields : List Word
  curField : Option (List Word)
  ifs : Str
  ifsNonSpace : Str
  inIfs : Bool
  inIfsNonSpace : Bool

def addToCurField (data : SplitFieldsData) (word : Word) : SplitFieldsData :=
  { data with curField := some (data.curField.getD [] ++ [word]) }

/-- `data->cur_field = NULL`. -/
def endCurField (data : SplitFieldsData) : SplitFieldsData :=
  { data with
    fields := data.fields ++ (data.curField.map (mrshWordListCreate · false)).toList
    curField := none }

/-- The loop over the characters of a string, where `buf` holds those that no
field has received yet. -/
def splitFieldsStr (data : SplitFieldsData) (buf : Str) : Str → SplitFieldsData
  | [] =>
      if data.inIfs then data else addToCurField data (mrshWordStringCreate buf false)
  | c :: str =>
      if c ∉ data.ifs then
        splitFieldsStr { data with inIfs := false, inIfsNonSpace := false } (buf ++ [c]) str
      else if !data.inIfs || (c ∈ data.ifsNonSpace && data.inIfsNonSpace) then
        let data := endCurField (addToCurField data (mrshWordStringCreate buf false))
        splitFieldsStr { data with inIfs := true } [] str
      else if c ∈ data.ifsNonSpace then
        splitFieldsStr { data with inIfsNonSpace := true } buf str
      else
        splitFieldsStr data buf str

mutual

/-- `_split_fields`. No word that it copies has an address. -/
def splitFieldsIn (data : SplitFieldsData) : Word → Option SplitFieldsData
  | .string str singleQuoted splitFields range =>
      if singleQuoted || !splitFields then do
        let word ← mrshWordCopy 0 (.string str singleQuoted splitFields range)
        some { addToCurField data word with inIfs := false, inIfsNonSpace := false }
      else some (splitFieldsStr data [] str)
  | .list children true lquotePos rquotePos => do
      let word ← mrshWordCopy 0 (.list children true lquotePos rquotePos)
      some (addToCurField data word)
  | .list children false _ _ => splitFieldsChildren data children
  | _ => none

def splitFieldsChildren (data : SplitFieldsData) : List Word → Option SplitFieldsData
  | [] => some data
  | child :: children => do
      let data ← splitFieldsIn data child
      splitFieldsChildren data children

end

def defaultIfs : Str := [' ', '\t', '\n']

/-- `split_fields`, where `ifs` is the value of `IFS` if it is set. -/
def splitFields (word : Word) (ifs : Option Str) : Option (List Word) :=
  let ifs := ifs.getD defaultIfs
  if ifs.isEmpty then do
    let word ← mrshWordCopy 0 word
    some [word]
  else do
    let data ← splitFieldsIn
      { fields := [], curField := none, ifs, ifsNonSpace := ifs.filter (!isSpace ·),
        inIfs := true, inIfsNonSpace := false } word
    some (endCurField data).fields

def getFieldsStr (fields : List Word) : Option (List Str) :=
  fields.mapM mrshWordStr

/-! ## Patterns -/

def isPathnameMetachar (c : Char) : Bool :=
  c == '*' || c == '?' || c == '[' || c == ']'

mutual

def needsPathnameExpansion : Word → Option Bool
  | .string str singleQuoted _ _ => some (!singleQuoted && str.any isPathnameMetachar)
  | .list children doubleQuoted _ _ =>
      if doubleQuoted then some false else childrenNeedPathnameExpansion children
  | _ => none

def childrenNeedPathnameExpansion : List Word → Option Bool
  | [] => some false
  | child :: children => do
      if ← needsPathnameExpansion child then some true
      else childrenNeedPathnameExpansion children

end

mutual

/-- `_word_to_pattern`. -/
def wordToPatternIn (quoted : Bool) : Word → Option Str
  | .string str singleQuoted _ _ =>
      some (str.flatMap fun c =>
        if isPathnameMetachar c && (quoted || singleQuoted) then ['\\', c] else [c])
  | .list children doubleQuoted _ _ => wordsToPattern (quoted || doubleQuoted) children
  | _ => none

def wordsToPattern (quoted : Bool) : List Word → Option Str
  | [] => some []
  | child :: children => do
      let pattern ← wordToPatternIn quoted child
      let rest ← wordsToPattern quoted children
      some (pattern ++ rest)

end

/-- `word_to_pattern`, where the inner `none` is the result NULL. -/
def wordToPattern (word : Word) : Option (Option Str) := do
  if ← needsPathnameExpansion word then
    let pattern ← wordToPatternIn false word
    some (some pattern)
  else some none

end Mrsh
