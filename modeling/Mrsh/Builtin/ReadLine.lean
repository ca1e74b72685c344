import Mathlib.Data.List.DropRight
import Mrsh.Builtin.OptionSequence
import Mrsh.Data.Fields
import Mrsh.Shell.SystemPart
import Mrsh.Shell.VariableWrites

namespace Mrsh

open Mrsh.Data

/-! # Reading a line into variables

`read` gives the line to the splitter as a word without the mark of a word that may be split.
The line is therefore one field, which the first variable receives.
-/

/-! ## The fields of a line -/

section

variable (ifs : Str)

def ifsItem (c : Char) : Item Char :=
  if c ∉ ifs then .content [c] else if isSpace c then .space else .separator

def lineFields (line : Str) : List Str := splitItems (line.map (ifsItem ifs))

def isIfsSpace (c : Char) : Bool := decide (c ∈ ifs) && isSpace c

/-- The text without the IFS whitespace at its ends. -/
def trimIfsSpace (text : Str) : Str := (text.dropWhile (isIfsSpace ifs)).rdropWhile (isIfsSpace ifs)

/-- The text behind IFS whitespace, and behind a separator and more IFS whitespace if there is one. -/
def afterDelimiter (text : Str) : Str :=
  match text.dropWhile (isIfsSpace ifs) with
  | [] => []
  | c :: rest => if c ∈ ifs then rest.dropWhile (isIfsSpace ifs) else c :: rest

/-- The text behind the first field and its delimiter. -/
def afterField (text : Str) : Str := afterDelimiter ifs (text.dropWhile fun c => decide (c ∉ ifs))

def remainingText : Nat → Str → Str
  | 0, text => text
  | i + 1, text => remainingText i (afterField ifs text)

/-- What the variable `i` of `count` is to receive. -/
def readValue (line : Str) (count i : Nat) : Str :=
  if i + 1 = count ∧ count < (lineFields ifs line).length then remainingText ifs i (trimIfsSpace ifs line)
  else (lineFields ifs line).getD i []

def readValues (line : Str) (count : Nat) : List Str := (List.range count).map (readValue ifs line count)

end

example : readValues defaultIfs "  a  b c ".toList 2 = [['a'], "b c".toList] := by decide

section

variable {ifs text line : Str} {c : Char}

theorem ifsItem_content (plain : c ∉ ifs) : ifsItem ifs c = .content [c] := if_pos plain

theorem run_plain (plain : ∀ c ∈ text, c ∉ ifs) (fields : List Str) (field : Str) :
    (text.map (ifsItem ifs)).foldl Split.step ⟨fields, .field field⟩ = ⟨fields, .field (field ++ text)⟩ := by
  induction text generalizing field with
  | nil => simp
  | cons c text ih =>
      obtain ⟨first, others⟩ := List.forall_mem_cons.mp plain
      rw [List.map_cons, List.foldl_cons, ifsItem_content first, Split.step, ih others]
      simp

theorem run_field (plain : ∀ c ∈ text, c ∉ ifs) (nonempty : text ≠ []) :
    (text.map (ifsItem ifs)).foldl Split.step Split.init = ⟨[], .field text⟩ := by
  cases text with
  | nil => exact absurd rfl nonempty
  | cons c text =>
      obtain ⟨first, others⟩ := List.forall_mem_cons.mp plain
      rw [List.map_cons, List.foldl_cons, ifsItem_content first, Split.init, Split.step, run_plain others]
      rfl

theorem lineFields_plain (plain : ∀ c ∈ line, c ∉ ifs) : lineFields ifs line = if line = [] then [] else [line] := by
  by_cases empty : line = []
  · subst empty
    rfl
  · rw [lineFields, splitItems, run_field plain empty, if_neg empty]
    rfl

theorem lineFields_mem {field : Str} (member : field ∈ lineFields ifs line) : ∀ c ∈ field, c ∉ ifs := by
  refine splitItems_forall (P := (· ∉ ifs)) (line.map (ifsItem ifs)) (fun text found => ?_) field member
  obtain ⟨c, -, item⟩ := List.mem_map.mp found
  by_cases delimiter : c ∈ ifs
  · cases space : isSpace c <;> simp [ifsItem, delimiter, space] at item
  · rw [ifsItem_content delimiter] at item
    cases item
    simpa using delimiter

/-! ## The line as the only field -/

/-- The values of a line that is one field. -/
def lineValues (line : Str) (count : Nat) : List Str := line :: List.replicate (count - 1) []

/-- Nothing is split off the line: it has no delimiter, or a single variable receives all of it. -/
def StaysWhole (ifs line : Str) (count : Nat) : Prop :=
  (∀ c ∈ line, c ∉ ifs) ∨
    count = 1 ∧ 2 ≤ (lineFields ifs line).length ∧
      ∀ c, line.head? = some c ∨ line.getLast? = some c → isIfsSpace ifs c = false

theorem readValues_plain (plain : ∀ c ∈ line, c ∉ ifs) (count : Nat) :
    readValues ifs line (count + 1) = lineValues line (count + 1) := by
  have few : (lineFields ifs line).length ≤ 1 := by
    rw [lineFields_plain plain]
    split <;> simp
  have fields (i : Nat) : (lineFields ifs line).getD i [] = if i = 0 then line else [] := by
    rw [lineFields_plain plain]
    by_cases empty : line = []
    · simp [empty]
    · cases i <;> simp [empty]
  have value (i : Nat) : readValue ifs line (count + 1) i = if i = 0 then line else [] := by
    rw [readValue, if_neg (by omega), fields]
  rw [readValues, List.range_succ_eq_map, List.map_cons, value, if_pos rfl, lineValues, List.map_map]
  refine congrArg (List.cons line) (List.eq_replicate_iff.mpr ⟨by simp, fun text member => ?_⟩)
  obtain ⟨i, -, rfl⟩ := List.mem_map.mp member
  rw [Function.comp, value, if_neg (Nat.succ_ne_zero i)]

theorem startsUnspaced_dropWhile (text : Str) :
    ∀ c ∈ (text.dropWhile (isIfsSpace ifs)).head?, isIfsSpace ifs c = false := by
  intro c first
  have stopped := List.head?_dropWhile_not (isIfsSpace ifs) text
  rw [Option.mem_def.mp first] at stopped
  simpa using stopped

theorem startsUnspaced_trimIfsSpace (line : Str) : ∀ c ∈ (trimIfsSpace ifs line).head?, isIfsSpace ifs c = false := by
  obtain ⟨trimmed, whole⟩ := List.rdropWhile_prefix (isIfsSpace ifs) (line.dropWhile (isIfsSpace ifs))
  intro c first
  refine startsUnspaced_dropWhile line c ?_
  rw [← whole, Option.mem_def, List.head?_append, ← trimIfsSpace, Option.mem_def.mp first, Option.some_or]

theorem trimIfsSpace_eq_iff : trimIfsSpace ifs line = line ↔
    ∀ c, line.head? = some c ∨ line.getLast? = some c → isIfsSpace ifs c = false := by
  constructor
  · intro whole c atEnd
    rcases atEnd with first | last
    · have starts := @startsUnspaced_trimIfsSpace ifs line
      rw [whole] at starts
      exact starts c first
    · rw [← whole] at last
      obtain ⟨nonempty, rfl⟩ := List.mem_getLast?_eq_getLast last
      exact Bool.eq_false_iff.mpr (List.rdropWhile_last_not (isIfsSpace ifs) _ nonempty)
  · intro visible
    have first : line.dropWhile (isIfsSpace ifs) = line := by
      cases line with
      | nil => rfl
      | cons c line => exact List.dropWhile_cons_of_neg (by simp [visible c (.inl rfl)])
    rw [trimIfsSpace, first, List.rdropWhile_eq_self_iff]
    intro nonempty
    simp [visible _ (.inr (List.getLast?_eq_some_getLast nonempty))]

/-- The first variable receives the line only if it is to receive all of it. -/
theorem readValue_first (count : Nat) (same : readValue ifs line (count + 1) 0 = line) :
    StaysWhole ifs line (count + 1) := by
  rw [readValue] at same
  split at same
  · rename_i last
    obtain ⟨single, more⟩ := last
    exact .inr ⟨single.symm, by omega, trimIfsSpace_eq_iff.mp same⟩
  · refine .inl fun c member => ?_
    cases split : lineFields ifs line with
    | nil =>
        rw [split] at same
        rw [← same] at member
        cases member
    | cons field fields =>
        rw [split, List.getD_cons_zero] at same
        subst same
        exact lineFields_mem (split ▸ List.mem_cons_self) c member

theorem lineValues_eq_iff (count : Nat) :
    lineValues line (count + 1) = readValues ifs line (count + 1) ↔ StaysWhole ifs line (count + 1) := by
  constructor
  · intro same
    rw [readValues, List.range_succ_eq_map, List.map_cons] at same
    exact readValue_first count (List.head_eq_of_cons_eq same).symm
  · rintro (plain | ⟨single, two, visible⟩)
    · exact (readValues_plain plain count).symm
    · obtain rfl : count = 0 := Nat.succ.inj single
      have value : readValue ifs line 1 0 = line := by
        rw [readValue, if_pos ⟨rfl, two⟩, remainingText, trimIfsSpace_eq_iff.mpr visible]
      simp [lineValues, readValues, List.range_succ, value]

end

/-! ## The run of `read` -/

section

variable {World : Type} [System World]

/-- Standard input delivers the line, and then a newline or the end of the input. -/
inductive DeliversLine : World → Str → Bool → World → Prop
  | ended {world after : World} (read : System.fgetc world = (none, after)) : DeliversLine world [] true after
  | newline {world after : World} (read : System.fgetc world = (some '\n', after)) : DeliversLine world [] false after
  | char {world between after : World} {c : Char} {line : Str} {ended : Bool}
      (read : System.fgetc world = (some c, between)) (inLine : c ≠ '\n')
      (rest : DeliversLine between line ended after) : DeliversLine world (c :: line) ended after

theorem readLineChars_line {world after : World} {line : Str} {ended : Bool}
    (delivers : DeliversLine world line ended after) {fuel : Nat} (enough : line.length < fuel) (buf : Str)
    (state : Shell World) (input : state.world = world) :
    Leaf.run (readLineChars true fuel false buf) state = .done (buf ++ line, ended) { state with world := after } := by
  obtain ⟨fuel, rfl⟩ := Nat.exists_eq_succ_of_ne_zero (Nat.ne_zero_of_lt enough)
  induction delivers generalizing fuel buf state with
  | ended read => simp [readLineChars, input, read]
  | newline read => simp [readLineChars, input, read]
  | @char world between after c line ended read inLine rest ih =>
      obtain ⟨less, rfl⟩ : ∃ less, fuel = less + 1 := ⟨fuel - 1, by simp at enough; omega⟩
      have later := ih (buf ++ [c]) { state with world := between } rfl less (by simpa using enough)
      rw [readLineChars, Leaf.run_call_bind, input, read]
      simp only [Bool.not_true, Bool.false_and, Bool.false_eq_true, if_false, beq_iff_eq, inLine]
      rw [later, List.append_assoc]
      rfl

/-- The variables of `getopt.c` behind `-r`. -/
def Getopt.behindRaw (getopt : Getopt) : Getopt :=
  { getopt with optarg := none, optind := 2, optpos := 1, optopt := none }

theorem forOptions_raw {name : Str} (named : strChar name 0 ≠ '-') (names : List Str) (state : Shell World) :
    Leaf.run (forOptions ("read".toList :: "-r".toList :: name :: names) ":r".toList false fun _ opt =>
        if opt == 'r' then pure (.ok true)
        else unknownOption "read: unknown option -- ".toList readUsage) state =
      .done (.ok true) { state with getopt := state.getopt.behindRaw } := by
  have first := @mrshGetopt_first World _ "read".toList "-r".toList ":r".toList (name :: names)
    { state with getopt := { state.getopt with optind := 0 } } rfl
  have isOption : Leaf.run (mrshGetopt ("read".toList :: "-r".toList :: name :: names).length
      (stringsArgv ("read".toList :: "-r".toList :: name :: names)) ":r".toList)
      { state with getopt := { state.getopt with optind := 0 } } =
        .done (some 'r') { state with getopt := state.getopt.behindRaw } := first
  have ended := slotOf_strings_end ("read".toList :: "-r".toList :: name :: names)
  have found : slotOf (stringsArgv ("read".toList :: "-r".toList :: name :: names))
      state.getopt.behindRaw.started.optind = some (some name) := slotOf_strings_some (i := 2).mpr rfl
  have inside : state.getopt.behindRaw.started.optind < ("read".toList :: "-r".toList :: name :: names).length := by
    change (2 : Int) < _
    simp only [List.length_cons]
    omega
  have isOperand : Leaf.run (mrshGetopt ("read".toList :: "-r".toList :: name :: names).length
      (stringsArgv ("read".toList :: "-r".toList :: name :: names)) ":r".toList)
      { state with getopt := state.getopt.behindRaw } = .done none { state with getopt := state.getopt.behindRaw } := by
    rw [mrshGetopt_at ended inside found, if_pos (by simp [named]), Leaf.run_pure]
    rfl
  obtain ⟨fuel, enough⟩ : ∃ fuel, ("read".toList :: "-r".toList :: name :: names).flatten.length = fuel + 1 := ⟨_, rfl⟩
  simp only [forOptions, resetOptind, Leaf.run_bind, setGetopt_run, Outcome.andThen_done, enough, optionLoop, isOption,
    isOperand, beq_self_eq_true, if_true, Leaf.run_pure]

omit [System World] in
theorem splitFields_line (line : Str) (ifs : Option Str) :
    ∃ fields, splitFields (mrshWordStringCreate line false) ifs = some fields ∧ getFieldsStr fields = some [line] := by
  rw [splitFields]
  split
  · exact ⟨[mrshWordStringCreate line false], rfl, rfl⟩
  · refine ⟨[mrshWordListCreate [mrshWordStringCreate line false] false], rfl, ?_⟩
    simp [getFieldsStr, mrshWordListCreate, mrshWordStringCreate, mrshWordStr, wordsStr]

/-- The variables are set one after the other. -/
def assignments (names values : List Str) : List (Str × Option Str) :=
  List.zipWith (fun name value => (name, some value)) names values

omit [System World] in
theorem assignFields_none (names : List Str) (state : Shell World) :
    ∃ after, RunWrites (assignFields names []) state (assignments names (List.replicate names.length [])) () after := by
  induction names generalizing state with
  | nil => exact ⟨_, .pure () state⟩
  | cons name names ih =>
      cases names with
      | nil => exact ⟨_, .mrshEnvSet .read name [] .none state⟩
      | cons next names =>
          obtain ⟨after, others⟩ := ih (writeVar state name (some ⟨[], .none⟩))
          exact ⟨after, .bind (.mrshEnvSet .read name [] .none state) others⟩

omit [System World] in
theorem assignFields_line (name : Str) (names : List Str) (line : Str) (state : Shell World) :
    ∃ after, RunWrites (assignFields (name :: names) [line]) state
      (assignments (name :: names) (lineValues line (names.length + 1))) () after := by
  cases names with
  | nil =>
      have whole : ([' '] : Str).intercalate [line] = line := by simp [List.intercalate]
      rw [assignFields, whole]
      exact ⟨_, .mrshEnvSet .read name line .none state⟩
  | cons next names =>
      obtain ⟨after, others⟩ := assignFields_none (next :: names) (writeVar state name (some ⟨line, .none⟩))
      exact ⟨after, .bind (.mrshEnvSet .read name line .none state) others⟩

omit [System World] in
theorem assignments_injective {names values others : List Str} (length : values.length = names.length)
    (otherLength : others.length = names.length) (same : assignments names values = assignments names others) :
    values = others := by
  induction names generalizing values others with
  | nil => rw [List.length_eq_zero_iff.mp length, List.length_eq_zero_iff.mp otherLength]
  | cons name names ih =>
      obtain ⟨value, values, rfl⟩ := List.exists_cons_of_length_eq_add_one length
      obtain ⟨other, others, rfl⟩ := List.exists_cons_of_length_eq_add_one otherLength
      obtain ⟨first, rest⟩ := List.cons.inj same
      injection first with _ first
      rw [Option.some.inj first, ih (by simpa using length) (by simpa using otherLength) rest]

/-- `read -r` with the names returns, and sets them to the values and nothing else. -/
def ReadSets (fuel : Nat) (names values : List Str) (state : Shell World) : Prop :=
  ∃ status after, RunWrites (builtinRead fuel ("read".toList :: "-r".toList :: names)) state
    (assignments names values) status after

theorem ReadSets.unique {fuel : Nat} {names values others : List Str} {state : Shell World}
    (sets : ReadSets fuel names values state) (setsOthers : ReadSets fuel names others state)
    (length : values.length = names.length) (otherLength : others.length = names.length) : values = others := by
  obtain ⟨_, _, writes⟩ := sets
  obtain ⟨_, _, otherWrites⟩ := setsOthers
  exact assignments_injective length otherLength (writes.writes.symm.trans otherWrites.writes)

variable {name : Str} {line : Str} {ended : Bool} {after : World} {fuel : Nat}

omit [System World] in
theorem assignLine (name : Str) (names : List Str) (line : Str) (ifs : Option Str) (status : Int)
    (state : Shell World) :
    ∃ after, RunWrites (do
        let fields ← orCrash (splitFields (mrshWordStringCreate line false) ifs)
        let strs ← orCrash (getFieldsStr fields)
        assignFields (name :: names) strs
        pure status) state (assignments (name :: names) (lineValues line (names.length + 1))) status after := by
  obtain ⟨fields, split, strs⟩ := splitFields_line line ifs
  obtain ⟨after, assigns⟩ := assignFields_line name names line state
  rw [split]
  refine ⟨after, .bind (.pure fields state) ?_⟩
  rw [strs]
  exact .bind (.pure [line] state) (assigns.thenPure status)

theorem builtinRead_line (named : strChar name 0 ≠ '-') (names : List Str) (state : Shell World)
    (delivers : DeliversLine state.world line ended after) (enough : line.length < fuel) :
    ReadSets fuel (name :: names) (lineValues (line.takeWhile (· != nul)) (names.length + 1)) state := by
  let opened : Shell World := { state with getopt := state.getopt.behindRaw }
  have options := forOptions_raw named names state
  have operands : Leaf.run (operandsOf ("read".toList :: "-r".toList :: name :: names)) opened =
    .done (name :: names) opened := rfl
  have reads := readLineChars_line delivers enough [] opened rfl
  obtain ⟨assigned, assigns⟩ := assignLine name names (line.takeWhile (· != nul))
    ((state.vars.get "IFS".toList).map (·.value)) (if ended then 1 else 0) { opened with world := after }
  refine ⟨if ended then 1 else 0, assigned, .bind (.spares (forOptions_spares _ _ _ fun _ _ =>
    .ite (.pure _) (unknownOption_talks _ _).spares) options) (.bind (.spares (operandsOf_spares _) operands) ?_)⟩
  exact .bind (.spares (readLineChars_spares _ _ _ _) reads) (.bind (.spares (.gets _) rfl) assigns)

/-- `read -r` does what it is for exactly with the lines that stay whole. -/
theorem readSets_iff (named : strChar name 0 ≠ '-') (names : List Str) (state : Shell World)
    (delivers : DeliversLine state.world line ended after) (enough : line.length < fuel) :
    ReadSets fuel (name :: names)
        (readValues (((state.vars.get "IFS".toList).map (·.value)).getD defaultIfs) (line.takeWhile (· != nul))
          (names.length + 1)) state ↔
      StaysWhole (((state.vars.get "IFS".toList).map (·.value)).getD defaultIfs) (line.takeWhile (· != nul))
        (names.length + 1) := by
  have sets := builtinRead_line named names state delivers enough
  rw [← lineValues_eq_iff]
  constructor
  · intro others
    exact sets.unique others (by simp [lineValues]) (by simp [readValues])
  · intro same
    rwa [← same]

end

/-! ## A machine with input -/

structure MachineWithInput where
  machine : Machine
  input : Str

instance : System MachineWithInput :=
  { (⟨MachineWithInput.machine, fun system machine => { system with machine }⟩ :
      SystemPart MachineWithInput Machine).system with
    fgetc := fun system =>
      match system.input with
      | [] => (none, system)
      | c :: input => (some c, { system with input }) }

theorem deliversLine_input (machine : Machine) (line rest : Str) (noNewline : '\n' ∉ line) :
    DeliversLine (⟨machine, line ++ '\n' :: rest⟩ : MachineWithInput) line false ⟨machine, rest⟩ := by
  induction line with
  | nil => exact .newline rfl
  | cons c line ih =>
      have inLine : c ≠ '\n' := fun same => noNewline (same ▸ List.mem_cons_self)
      exact .char rfl inLine (ih fun member => noNewline (List.mem_cons_of_mem _ member))

/-- A shell with a line on its standard input. -/
def readingShell (line : Str) : Shell MachineWithInput := mrshStateCreate [] ⟨Machine.isolated, line ++ ['\n']⟩

/-- The line `one`, read into two variables. -/
theorem readSets_one :
    ReadSets 4 [['x'], ['y']] (readValues defaultIfs "one".toList 2) (readingShell "one".toList) :=
  (readSets_iff (by decide) [['y']] (readingShell "one".toList)
    (deliversLine_input Machine.isolated "one".toList [] (by decide)) (by decide)).mpr (.inl (by decide))

/-- The line `a b`, read into two variables, goes to the first of them. -/
theorem readSets_not_split :
    ReadSets 4 [['x'], ['y']] ["a b".toList, []] (readingShell "a b".toList) ∧
      ¬ ReadSets 4 [['x'], ['y']] (readValues defaultIfs "a b".toList 2) (readingShell "a b".toList) := by
  have whole := @builtinRead_line MachineWithInput _ ['x'] "a b".toList false _ 4 (by decide) [['y']]
    (readingShell "a b".toList) (deliversLine_input Machine.isolated "a b".toList [] (by decide)) (by decide)
  refine ⟨whole, fun split => ?_⟩
  have same := whole.unique split rfl rfl
  revert same
  decide

end Mrsh
