import Mrsh.Builtin.Getopt

namespace Mrsh

/-! # The table of the builtins

The names of `builtin/builtin.c` and the binary search for them.
-/

/-- The functions of the builtins. `export` is also `readonly`, and `break` is
also `continue`. -/
inductive BuiltinFunc where
  | dot | colon | alias | bg | break | cd | command | eval | exec | exit | export | false | fg
  | getopts | hash | jobs | pwd | read | return | set | shift | times | trap | true | type
  | ulimit | umask | unalias | unset | wait | unspecified
deriving Repr, DecidableEq

structure Builtin where
  name : Str
  func : BuiltinFunc
  special : Bool
deriving Repr, DecidableEq

def builtins : List Builtin :=
  [⟨".".toList, .dot, true⟩, ⟨":".toList, .colon, true⟩, ⟨"alias".toList, .alias, false⟩,
   ⟨"bg".toList, .bg, false⟩, ⟨"break".toList, .break, true⟩, ⟨"cd".toList, .cd, false⟩,
   ⟨"command".toList, .command, false⟩, ⟨"continue".toList, .break, true⟩,
   ⟨"eval".toList, .eval, true⟩, ⟨"exec".toList, .exec, true⟩, ⟨"exit".toList, .exit, true⟩,
   ⟨"export".toList, .export, true⟩, ⟨"false".toList, .false, false⟩, ⟨"fg".toList, .fg, false⟩,
   ⟨"getopts".toList, .getopts, false⟩, ⟨"hash".toList, .hash, false⟩,
   ⟨"jobs".toList, .jobs, false⟩, ⟨"pwd".toList, .pwd, false⟩, ⟨"read".toList, .read, false⟩,
   ⟨"readonly".toList, .export, true⟩, ⟨"return".toList, .return, true⟩,
   ⟨"set".toList, .set, true⟩, ⟨"shift".toList, .shift, true⟩, ⟨"times".toList, .times, true⟩,
   ⟨"trap".toList, .trap, true⟩, ⟨"true".toList, .true, false⟩, ⟨"type".toList, .type, false⟩,
   ⟨"ulimit".toList, .ulimit, false⟩, ⟨"umask".toList, .umask, false⟩,
   ⟨"unalias".toList, .unalias, false⟩, ⟨"unset".toList, .unset, true⟩,
   ⟨"wait".toList, .wait, false⟩]

/-- The names whose behaviour is unspecified. The order of the table is not that
of `strcmp` everywhere. -/
def unspecifiedNames : List Str :=
  ["alloc", "autoload", "bind", "bindkey", "builtin", "bye", "caller", "cap", "chdir", "clone",
   "comparguments", "compcall", "compctl", "compdescribe", "compfiles", "compgen", "compgroups",
   "complete", "compquote", "comptags", "comptry", "compvalues", "declare", "dirs", "disable",
   "disown", "dosh", "echotc", "echoti", "help", "history", "hist", "let", "local", "login",
   "logout", "map", "mapfile", "popd", "print", "pushd", "readarray", "repeat", "savehistory",
   "source", "shopt", "stop", "suspend", "typeset", "whence"].map String.toList

/-- `bsearch` between two indices, where the fuel bounds their distance. -/
def bsearchBetween {α : Type} (name : α → Str) (key : Str) (table : List α) :
    Nat → Nat → Nat → Option α
  | 0, _, _ => none
  | fuel + 1, low, high =>
      if high ≤ low then none
      else
        let middle := (low + high) / 2
        match table[middle]? with
        | none => none
        | some entry =>
            if name entry = key then some entry
            else if strLe key (name entry) then bsearchBetween name key table fuel low middle
            else bsearchBetween name key table fuel (middle + 1) high

def bsearch {α : Type} (name : α → Str) (key : Str) (table : List α) : Option α :=
  bsearchBetween name key table (table.length + 1) 0 table.length

theorem bsearchBetween_found {α : Type} {name : α → Str} {key : Str} {table : List α} {fuel low high : Nat} {entry : α}
    (found : bsearchBetween name key table fuel low high = some entry) : entry ∈ table ∧ name entry = key := by
  induction fuel generalizing low high with
  | zero => cases found
  | succ fuel ih =>
      unfold bsearchBetween at found
      split at found
      · cases found
      · simp only at found
        cases middle : table[(low + high) / 2]? with
        | none => simp [middle] at found
        | some other =>
            simp only [middle] at found
            split at found
            · next same =>
              cases found
              exact ⟨List.mem_of_getElem? middle, same⟩
            · split at found
              · exact ih found
              · exact ih found

theorem bsearch_found {α : Type} {name : α → Str} {key : Str} {table : List α} {entry : α}
    (found : bsearch name key table = some entry) : entry ∈ table ∧ name entry = key := bsearchBetween_found found

def unspecified : Builtin := ⟨"unspecified".toList, .unspecified, false⟩

def getBuiltin (name : Str) : Option Builtin :=
  match bsearch id name unspecifiedNames with
  | some _ => some unspecified
  | none => bsearch Builtin.name name builtins

def mrshHasBuiltin (name : Str) : Bool := (getBuiltin name).isSome

theorem mrshHasBuiltin_mem {name : Str} (isBuiltin : mrshHasBuiltin name = true) :
    name ∈ unspecifiedNames ++ builtins.map Builtin.name := by
  unfold mrshHasBuiltin getBuiltin at isBuiltin
  cases unspecified : bsearch id name unspecifiedNames with
  | some other =>
      obtain ⟨member, same⟩ := bsearch_found unspecified
      exact List.mem_append_left _ (same ▸ member)
  | none =>
      rw [unspecified] at isBuiltin
      obtain ⟨builtin, found⟩ := Option.isSome_iff_exists.mp isBuiltin
      obtain ⟨member, same⟩ := bsearch_found found
      exact List.mem_append_right _ (List.mem_map.mpr ⟨builtin, member, same⟩)

def mrshHasSpecialBuiltin (name : Str) : Bool := (getBuiltin name).any (·.special)

end Mrsh
