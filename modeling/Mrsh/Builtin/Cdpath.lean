import Mrsh.Builtin.OptionSequence
import Mrsh.Builtin.Variables
import Mrsh.Data.Tokens
import Mrsh.Shell.SystemPart

namespace Mrsh

open Mrsh.Data

/-! # The list of directories of `cd`

An element of `CDPATH` and the operand make a path, with a slash between them if
the element does not end with one. `builtin_cd` looks for the slash in the whole
rest of the list, so the end of the list decides about every element before it.
-/

/-! ## What the list asks for -/

/-- The paths of an operand in the order of the list, where an empty element
stands for the working directory. -/
def cdpathPaths (cdpath curpath : Str) : List Str :=
  (cdpath.splitOn ':').map fun element => joinPath (if element.isEmpty then ['.'] else element) curpath

/-- Where a path starts, and the names between its slashes. -/
def pathNames (path : Str) : Bool × List Str := (path.head? == some '/', tokens '/' path)

/-- What is found at a path. -/
inductive Entry (δ : Type) where
  | missing
  | file
  | directory (dir : δ)

def Entry.directory? {δ : Type} : Entry δ → Option δ
  | .directory dir => some dir
  | _ => none

/-- A system in which the entry that a path stands for can be seen, and the
directory that the shell is in. -/
structure DirectoryLaws (World δ : Type) [System World] (entry : World → Str → Entry δ) (cwd : World → δ) : Prop where
  stat_missing : ∀ path world, entry world path = .missing → ∃ errno, (System.stat path world).1 = .error errno
  stat_file : ∀ path world, entry world path = .file →
    ∃ mode, (System.stat path world).1 = .ok mode ∧ sIsdir mode = false
  stat_directory : ∀ path world dir, entry world path = .directory dir →
    ∃ mode, (System.stat path world).1 = .ok mode ∧ sIsdir mode = true
  stat_keeps : ∀ path world, entry (System.stat path world).2 = entry world ∧ cwd (System.stat path world).2 = cwd world
  indeterminate_keeps : ∀ world : World,
    entry (System.indeterminate world).2 = entry world ∧ cwd (System.indeterminate world).2 = cwd world
  chdir_enters : ∀ path world dir, entry world path = .directory dir →
    (System.chdir path world).1 = .ok () ∧ cwd (System.chdir path world).2 = dir
  chdir_fails : ∀ path world, (entry world path).directory? = none →
    ∃ errno, (System.chdir path world).1 = .error errno ∧ cwd (System.chdir path world).2 = cwd world
  getcwd_cwd : ∀ world, cwd (System.getcwd world).2 = cwd world
  printErr_cwd : ∀ text world, cwd (System.printErr text world).2 = cwd world

/-- The arguments of `cd` with an operand, in front of which `--` may stand. -/
inductive CdArgs (curpath : Str) : List Str → Prop where
  | operand (name : Str) (rest : List Str) (plain : strChar curpath 0 ≠ '-' ∨ strChar curpath 1 = nul) :
      CdArgs curpath (name :: curpath :: rest)
  | dashes (name : Str) (rest : List Str) : CdArgs curpath (name :: ['-', '-'] :: curpath :: rest)

/-- The first of the paths that is a directory, and the directory of before if there is none. -/
def firstDirectory {δ : Type} (entries : Str → Entry δ) (here : δ) (paths : List Str) : δ :=
  (paths.findSome? fun path => (entries path).directory?).getD here

/-- Among the entries, `cd` goes to the first directory in the list, and to the operand itself if
there is none, in every system. -/
def CdFindsDirectory {δ : Type} (entries : Str → Entry δ) (here : δ) (cdpath curpath : Str) : Prop :=
  ∀ (World : Type) [System World] (entry : World → Str → Entry δ) (cwd : World → δ),
    DirectoryLaws World δ entry cwd → ∀ (args : List Str) (state : Shell World), CdArgs curpath args →
      (state.vars.get "CDPATH".toList).map (·.value) = some cdpath → entry state.world = entries →
      cwd state.world = here →
      cwd (Leaf.run (builtinCd args) state).state.world =
        firstDirectory entries here (cdpathPaths cdpath curpath ++ [curpath])

/-- If the list ends with a slash, then every element does that is not empty. -/
def CdpathSafe (cdpath curpath : Str) : Prop :=
  curpath = [] ∨ (cdpath.getLast? = some '/' →
    ∀ element ∈ cdpath.splitOn ':', element = [] ∨ element.getLast? = some '/')

/-! ## The paths that are tried -/

def triedPaths (curpath : Str) : List Str → List Str
  | [] => []
  | element :: elements =>
      cdpathElement ([':'].intercalate (element :: elements)) curpath :: triedPaths curpath elements

/-- The paths with and without the slash of the element lead to the same directory. -/
def JoinsAlike {δ : Type} (entries : Str → Entry δ) (here : δ) (cdpath curpath : Str) : Prop :=
  firstDirectory entries here (triedPaths curpath (cdpath.splitOn ':') ++ [curpath]) =
    firstDirectory entries here (cdpathPaths cdpath curpath ++ [curpath])

/-- No path is missing that is tried before the first directory, unless `cd` has nowhere to go. -/
def TriesPresent {δ : Type} (entries : Str → Entry δ) (here : δ) (cdpath curpath : Str) : Prop :=
  (∀ path ∈ (triedPaths curpath (cdpath.splitOn ':')).takeWhile fun path => (entries path).directory?.isNone,
    entries path ≠ .missing) ∨ firstDirectory entries here (cdpathPaths cdpath curpath ++ [curpath]) = here

/-- What a search comes to, where `answers` are those that `isdir` may give for a path that is missing. -/
inductive SearchEnds {δ : Type} (answers : Bool → Prop) (entries : Str → Entry δ) : List Str → Option Str → Prop where
  | nil : SearchEnds answers entries [] none
  | found {path rest dir} (isDirectory : entries path = .directory dir) :
      SearchEnds answers entries (path :: rest) (some path)
  | mistaken {path rest} (missing : entries path = .missing) (answer : answers true) :
      SearchEnds answers entries (path :: rest) (some path)
  | missing {path rest found} (missing : entries path = .missing) (answer : answers false)
      (behind : SearchEnds answers entries rest found) : SearchEnds answers entries (path :: rest) found
  | file {path rest found} (isFile : entries path = .file) (behind : SearchEnds answers entries rest found) :
      SearchEnds answers entries (path :: rest) found

/-- Where `cd` goes after the search. -/
def goesTo {δ : Type} (entries : Str → Entry δ) (here : δ) (curpath : Str) (found : Option Str) : δ :=
  (entries (found.getD curpath)).directory?.getD here

namespace SearchEnds

variable {δ : Type} {answers : Bool → Prop} {entries : Str → Entry δ} {paths : List Str} {found : Option Str}

theorem skip {path : Str} (noDirectory : (entries path).directory? = none) (curpath : Str) (here : δ) :
    firstDirectory entries here (path :: paths ++ [curpath]) = firstDirectory entries here (paths ++ [curpath]) := by
  rw [firstDirectory, firstDirectory, List.cons_append, List.findSome?_cons, noDirectory]

theorem goesTo_first (ends : SearchEnds answers entries paths found) (curpath : Str) (here : δ) :
    goesTo entries here curpath found = firstDirectory entries here (paths ++ [curpath]) ∨
      answers true ∧ (∃ path ∈ paths.takeWhile fun path => (entries path).directory?.isNone, entries path = .missing) ∧
        goesTo entries here curpath found = here := by
  have later {path : Str} {paths : List Str} (noDirectory : (entries path).directory? = none)
      (missing : ∃ path ∈ paths.takeWhile fun path => (entries path).directory?.isNone, entries path = .missing) :
      ∃ other ∈ (path :: paths).takeWhile fun path => (entries path).directory?.isNone, entries other = .missing := by
    obtain ⟨other, member, missing⟩ := missing
    rw [List.takeWhile_cons_of_pos (by rw [noDirectory]; rfl)]
    exact ⟨other, List.mem_cons_of_mem _ member, missing⟩
  induction ends with
  | nil =>
      left
      rw [goesTo, firstDirectory, List.nil_append, List.findSome?_cons]
      cases h : (entries curpath).directory? <;> simp [h]
  | found isDirectory =>
      left
      rw [goesTo, firstDirectory, List.cons_append, List.findSome?_cons, Option.getD_some, isDirectory]
      rfl
  | @mistaken path rest missing answer =>
      right
      refine ⟨answer, ⟨path, ?_, missing⟩, ?_⟩
      · rw [List.takeWhile_cons_of_pos (by rw [missing]; rfl)]
        exact List.mem_cons_self
      · rw [goesTo, Option.getD_some, missing]
        rfl
  | missing missing answer behind ih =>
      have noDirectory : (entries _).directory? = none := congrArg Entry.directory? missing
      rw [skip noDirectory]
      exact ih.imp_right fun ⟨answers, lost, stays⟩ => ⟨answers, later noDirectory lost, stays⟩
  | file isFile behind ih =>
      have noDirectory : (entries _).directory? = none := congrArg Entry.directory? isFile
      rw [skip noDirectory]
      exact ih.imp_right fun ⟨answers, lost, stays⟩ => ⟨answers, later noDirectory lost, stays⟩

/-- If `isdir` takes what is missing for a directory, then the search goes no further. -/
theorem goesTo_missing (ends : SearchEnds answers entries paths found) (mistakes : ¬ answers false) {path : Str}
    (tried : path ∈ paths.takeWhile fun path => (entries path).directory?.isNone) (missing : entries path = .missing)
    (curpath : Str) (here : δ) : goesTo entries here curpath found = here := by
  induction ends with
  | nil => cases tried
  | found isDirectory =>
      rw [List.takeWhile_cons_of_neg (by rw [isDirectory]; exact Bool.false_ne_true)] at tried
      cases tried
  | mistaken first answer =>
      rw [goesTo, Option.getD_some, first]
      rfl
  | missing _ answer => exact absurd answer mistakes
  | file isFile behind ih =>
      rw [List.takeWhile_cons_of_pos (by rw [isFile]; rfl)] at tried
      rcases List.mem_cons.mp tried with rfl | tried
      · rw [isFile] at missing
        cases missing
      · exact ih tried

end SearchEnds

section

variable {World δ : Type} [System World] {entry : World → Str → Entry δ} {cwd : World → δ}

/-- What an uninitialised `st_mode` may look like. -/
def Answers (World : Type) [System World] (answer : Bool) : Prop :=
  ∃ world : World, sIsdir (System.indeterminate world).1 = answer

theorem cd_cwd (laws : DirectoryLaws World δ entry cwd) (path : Str) (state : Shell World) :
    cwd (Leaf.run (cd path) state).state.world = (entry state.world path).directory?.getD (cwd state.world) := by
  rw [cd, Leaf.run_bind, envValue, Leaf.run_gets, Outcome.andThen_done, Leaf.run_call_bind]
  cases found : (entry state.world path).directory? with
  | none =>
      obtain ⟨errno, failed, kept⟩ := laws.chdir_fails path state.world found
      rw [failed]
      exact (laws.printErr_cwd _ _).trans kept
  | some dir =>
      have isDirectory : entry state.world path = .directory dir := by
        cases at_ : entry state.world path <;> rw [at_] at found <;> cases found
        rfl
      obtain ⟨entered, inside⟩ := laws.chdir_enters path state.world dir isDirectory
      have asked := (laws.getcwd_cwd (System.chdir path state.world).2).trans inside
      rw [entered]
      dsimp only
      rw [Leaf.run_bind, currentWorkingDir, Leaf.run_call, Outcome.andThen_done]
      cases (System.getcwd (System.chdir path state.world).2).1 with
      | error errno => exact (laws.printErr_cwd _ _).trans asked
      | ok name =>
          cases (state.vars.get "PWD".toList).map (·.value) with
          | none => exact asked
          | some oldPwd => exact asked

theorem isdir_run (laws : DirectoryLaws World δ entry cwd) (path : Str) (state : Shell World) :
    ∃ answer after, Leaf.run (isdir path) state = .done answer after ∧ entry after.world = entry state.world ∧
      cwd after.world = cwd state.world ∧
      match entry state.world path with
      | .missing => Answers World answer
      | .file => answer = false
      | .directory _ => answer = true := by
  obtain ⟨sameEntries, sameCwd⟩ := laws.stat_keeps path state.world
  have replies {mode : Int} (replied : (System.stat path state.world).1 = .ok mode) :
      Leaf.run (isdir path) state =
        .done (sIsdir mode) { state with world := (System.stat path state.world).2 } := by
    rw [isdir, Leaf.run_call_bind, replied]
    rfl
  cases found : entry state.world path with
  | missing =>
      obtain ⟨errno, failed⟩ := laws.stat_missing path state.world found
      obtain ⟨keptEntries, keptCwd⟩ := laws.indeterminate_keeps (System.stat path state.world).2
      refine ⟨sIsdir (System.indeterminate (System.stat path state.world).2).1,
        { state with world := (System.indeterminate (System.stat path state.world).2).2 }, ?_,
        keptEntries.trans sameEntries, keptCwd.trans sameCwd, _, rfl⟩
      rw [isdir, Leaf.run_call_bind, failed]
      rfl
  | file =>
      obtain ⟨mode, replied, other⟩ := laws.stat_file path state.world found
      exact ⟨_, _, replies replied, sameEntries, sameCwd, other⟩
  | directory dir =>
      obtain ⟨mode, replied, isDirectory⟩ := laws.stat_directory path state.world dir found
      exact ⟨_, _, replies replied, sameEntries, sameCwd, isDirectory⟩

theorem intercalate_cons {element : Str} (elements : List Str) (plain : ':' ∉ element) :
    ([':'].intercalate (element :: elements)).takeWhile (· != ':') = element ∧
      (elements ≠ [] → ':' ∈ [':'].intercalate (element :: elements) ∧
        (([':'].intercalate (element :: elements)).dropWhile (· != ':')).drop 1 = [':'].intercalate elements) := by
  have all : ∀ c ∈ element, (c != ':') = true := by
    intro c mem
    have other : c ≠ ':' := fun same => plain (same ▸ mem)
    simpa using other
  cases elements with
  | nil => simpa using List.takeWhile_eq_self_iff.mpr all
  | cons next elements =>
      rw [List.intercalate_cons_cons, List.append_assoc]
      refine ⟨?_, fun _ => ⟨by simp, ?_⟩⟩
      · rw [List.takeWhile_append_of_pos all]
        simp
      · rw [List.dropWhile_append_of_pos all]
        simp

/-- The search ends, where the tried paths lead it. -/
theorem cdpathSearch_run (laws : DirectoryLaws World δ entry cwd) (curpath : Str) {elements : List Str}
    (nonempty : elements ≠ []) (plain : ∀ element ∈ elements, ':' ∉ element) {fuel : Nat}
    (enough : elements.length ≤ fuel) (state : Shell World) :
    ∃ found after, Leaf.run (cdpathSearch curpath fuel ([':'].intercalate elements)) state = .done found after ∧
      entry after.world = entry state.world ∧ cwd after.world = cwd state.world ∧
      SearchEnds (Answers World) (entry state.world) (triedPaths curpath elements) found := by
  induction elements generalizing fuel state with
  | nil => exact absurd rfl nonempty
  | cons element elements ih =>
      obtain ⟨fuel, rfl⟩ : ∃ less, fuel = less + 1 := ⟨fuel - 1, by simp at enough; omega⟩
      obtain ⟨plain, plainRest⟩ := List.forall_mem_cons.mp plain
      obtain ⟨-, more⟩ := intercalate_cons elements plain
      obtain ⟨answer, asked, ran, sameEntries, sameCwd, meaning⟩ :=
        isdir_run laws (cdpathElement ([':'].intercalate (element :: elements)) curpath) state
      rw [cdpathSearch, triedPaths, Leaf.run_bind_of_done ran, Leaf.run_ite]
      cases answer with
      | true =>
          refine ⟨some _, asked, if_pos rfl, sameEntries, sameCwd, ?_⟩
          cases found : entry state.world (cdpathElement ([':'].intercalate (element :: elements)) curpath) with
          | missing =>
              rw [found] at meaning
              exact .mistaken found meaning
          | file =>
              rw [found] at meaning
              cases meaning
          | directory dir => exact .found found
      | false =>
          -- The rest of the list is tried, from the state in which `isdir` has answered.
          have skips {found : Option Str}
              (behind : SearchEnds (Answers World) (entry state.world) (triedPaths curpath elements) found) :
              SearchEnds (Answers World) (entry state.world)
                (cdpathElement ([':'].intercalate (element :: elements)) curpath :: triedPaths curpath elements)
                found := by
            cases found : entry state.world (cdpathElement ([':'].intercalate (element :: elements)) curpath) with
            | missing =>
                rw [found] at meaning
                exact .missing found meaning behind
            | file => exact .file found behind
            | directory dir =>
                rw [found] at meaning
                cases meaning
          rw [if_neg Bool.false_ne_true, Leaf.run_ite]
          cases elements with
          | nil =>
              have last : ':' ∉ [':'].intercalate [element] := by simpa using plain
              rw [if_neg last]
              exact ⟨none, _, rfl, sameEntries, sameCwd, skips .nil⟩
          | cons next elements =>
              obtain ⟨colon, dropped⟩ := more (by simp)
              rw [if_pos colon, dropped]
              obtain ⟨found, after, searched, entries, directory, ends⟩ :=
                ih (by simp) plainRest (by simpa using enough) asked
              rw [sameEntries] at entries ends
              exact ⟨found, after, searched, entries, directory.trans sameCwd, skips ends⟩

theorem splitOn_plain (cdpath : Str) : ∀ element ∈ cdpath.splitOn ':', ':' ∉ element := by
  induction cdpath with
  | nil => simp
  | cons c cdpath ih =>
      rw [List.splitOn_cons_eq_if_modifyHead]
      split
      · simpa using ih
      · rename_i other
        cases split : cdpath.splitOn ':' with
        | nil => simp
        | cons element elements =>
            rw [split] at ih
            simp only [beq_iff_eq] at other
            simpa [Ne.symm other] using ih

theorem cdTo_cwd (laws : DirectoryLaws World δ entry cwd) {cdpath curpath : Str} (listed : usesCdpath curpath = true)
    (operand : curpath ≠ ['-']) {state : Shell World}
    (value : (state.vars.get "CDPATH".toList).map (·.value) = some cdpath) :
    ∃ found, SearchEnds (Answers World) (entry state.world) (triedPaths curpath (cdpath.splitOn ':')) found ∧
      cwd (Leaf.run (cdTo curpath) state).state.world =
        goesTo (entry state.world) (cwd state.world) curpath found := by
  obtain ⟨found, after, searched, sameEntries, sameCwd, ends⟩ :=
    cdpathSearch_run laws curpath (List.splitOn_ne_nil ':' cdpath) (splitOn_plain cdpath) (splitOn_length_le cdpath)
      state
  rw [List.intercalate_splitOn] at searched
  refine ⟨found, ends, ?_⟩
  rw [cdTo, if_neg (by simpa using operand), listed, if_pos rfl, Leaf.run_bind, envValue, Leaf.run_gets,
    Outcome.andThen_done, value]
  dsimp only
  rw [Leaf.run_bind_of_done searched, goesTo, ← sameEntries, ← sameCwd]
  cases found with
  | none => exact cd_cwd laws curpath after
  | some path => exact cd_cwd laws path after

theorem builtinCd_operand {curpath : Str} {args : List Str} (operand : CdArgs curpath args) (state : Shell World) :
    ∃ getopt, Leaf.run (builtinCd args) state = Leaf.run (cdTo curpath) { state with getopt } := by
  cases operand with
  | operand name rest plain =>
      rw [builtinCd, Leaf.run_bind, forOptions_plain name _ rest _ _ plain]
      exact ⟨_, rfl⟩
  | dashes name rest =>
      rw [builtinCd, Leaf.run_bind, forOptions_dashes]
      exact ⟨_, rfl⟩

theorem builtinCd_cwd (laws : DirectoryLaws World δ entry cwd) {cdpath curpath : Str}
    (listed : usesCdpath curpath = true) (operand : curpath ≠ ['-']) {args : List Str} (given : CdArgs curpath args)
    {state : Shell World} (value : (state.vars.get "CDPATH".toList).map (·.value) = some cdpath) :
    ∃ found, SearchEnds (Answers World) (entry state.world) (triedPaths curpath (cdpath.splitOn ':')) found ∧
      cwd (Leaf.run (builtinCd args) state).state.world =
        goesTo (entry state.world) (cwd state.world) curpath found := by
  obtain ⟨getopt, ran⟩ := builtinCd_operand given state
  rw [ran]
  let scanned : Shell World := { state with getopt }
  have kept : (scanned.vars.get "CDPATH".toList).map (·.value) = some cdpath := value
  exact cdTo_cwd laws listed operand kept

end

/-! ## The slash -/

theorem lastSlash_slash {str : Str} {i : Nat} (found : lastSlash str = some i) : str[i]? = some '/' := by
  obtain ⟨⟨c, j⟩, last, rfl⟩ := Option.map_eq_some_iff.mp found
  obtain ⟨inside, slash⟩ := List.mem_filter.mp (List.mem_of_getLast? last)
  rw [← beq_iff_eq.mp slash]
  exact List.mem_zipIdx_iff_getElem?.mp inside

theorem lastSlash_ending (str : Str) : lastSlash (str ++ ['/']) = some str.length := by
  simp [lastSlash, List.zipIdx_append]

theorem getLast?_slash {str : Str} (ends : str.getLast? = some '/') : ∃ before, str = before ++ ['/'] := by
  obtain ⟨before, rfl⟩ := List.getLast?_eq_some_iff.mp ends
  exact ⟨before, rfl⟩

/-- The slash is left out if the rest of the list ends with one, or the element does. -/
theorem cdpathElement_cases {element : Str} (elements : List Str) (plain : ':' ∉ element) (nonempty : element ≠ [])
    (curpath : Str) :
    (cdpathElement ([':'].intercalate (element :: elements)) curpath = element ++ curpath ∧
      (([':'].intercalate (element :: elements)).getLast? = some '/' ∨ element.getLast? = some '/')) ∨
    (cdpathElement ([':'].intercalate (element :: elements)) curpath = element ++ '/' :: curpath ∧
      ([':'].intercalate (element :: elements)).getLast? ≠ some '/') := by
  obtain ⟨first, -⟩ := intercalate_cons elements plain
  obtain ⟨rest, begins⟩ : element <+: [':'].intercalate (element :: elements) := by
    cases elements with
    | nil => simp
    | cons next elements => exact ⟨':' :: [':'].intercalate (next :: elements), by simp⟩
  have found : element.isEmpty = false := by simpa using nonempty
  rw [cdpathElement, first, found, if_neg Bool.false_ne_true]
  generalize [':'].intercalate (element :: elements) = list at *
  cases slash : lastSlash list with
  | none =>
      right
      refine ⟨by simp, fun ends => ?_⟩
      obtain ⟨before, rfl⟩ := getLast?_slash ends
      rw [lastSlash_ending] at slash
      cases slash
  | some i =>
      have at_ := lastSlash_slash slash
      by_cases atEnd : i + 1 = list.length ∨ i + 1 = element.length
      · left
        refine ⟨by simp [atEnd], ?_⟩
        rcases atEnd with atEnd | atEnd
        · left
          rw [List.getLast?_eq_getElem?, ← atEnd]
          exact at_
        · right
          rw [List.getLast?_eq_getElem?, ← atEnd]
          rw [← begins, List.getElem?_append_left (by omega)] at at_
          exact at_
      · right
        refine ⟨by simp [atEnd], fun ends => atEnd (.inl ?_)⟩
        obtain ⟨before, rfl⟩ := getLast?_slash ends
        rw [lastSlash_ending] at slash
        simpa using (Option.some.inj slash).symm

theorem intercalate_ending (element next : Str) (elements : List Str) :
    ([':'].intercalate (element :: next :: elements)).getLast? = some '/' ↔
      ([':'].intercalate (next :: elements)).getLast? = some '/' := by
  rw [List.intercalate_cons_cons, List.append_assoc, List.getLast?_append]
  cases [':'].intercalate (next :: elements) with
  | nil => simp
  | cons c rest => simp [List.getLast?_cons_cons]

/-! ## Lists that are searched right -/

theorem pathNames_slash {element curpath : Str} (nonempty : element ≠ [])
    (idle : curpath = [] ∨ element.getLast? = some '/') :
    pathNames (element ++ '/' :: curpath) = pathNames (element ++ curpath) := by
  have starts (rest : Str) : (element ++ rest).head? = element.head? := by
    cases element with
    | nil => exact absurd rfl nonempty
    | cons c element => rfl
  rw [pathNames, pathNames, starts, starts]
  rcases idle with rfl | ends
  · rw [tokens_trailing, List.append_nil]
  · obtain ⟨before, rfl⟩ := getLast?_slash ends
    have doubled : tokens '/' (before ++ '/' :: '/' :: curpath) = tokens '/' (before ++ '/' :: curpath) :=
      tokens_doubled before curpath
    simpa using doubled

theorem cdpathElement_names {element curpath : Str} (elements : List Str) (plain : ':' ∉ element)
    (safe : curpath = [] ∨ (([':'].intercalate (element :: elements)).getLast? = some '/' →
      element = [] ∨ element.getLast? = some '/')) :
    pathNames (cdpathElement ([':'].intercalate (element :: elements)) curpath) =
      pathNames (joinPath (if element.isEmpty then ['.'] else element) curpath) := by
  by_cases nonempty : element = []
  · obtain ⟨first, -⟩ := intercalate_cons elements plain
    rw [cdpathElement, first, nonempty]
    rfl
  · have found : element.isEmpty = false := by simpa using nonempty
    rw [found, if_neg Bool.false_ne_true, joinPath]
    rcases cdpathElement_cases elements plain nonempty curpath with ⟨left, ends⟩ | ⟨added, -⟩
    · have idle : curpath = [] ∨ element.getLast? = some '/' := by
        rcases ends with ends | ends
        · exact safe.imp_right fun listed => (listed ends).resolve_left nonempty
        · exact .inr ends
      rw [left]
      split
      · simp
      · simpa using (pathNames_slash nonempty idle).symm
    · rw [added]
      split
      · rename_i ends
        have same : pathNames (element ++ '/' :: curpath) = pathNames (element ++ curpath) :=
          pathNames_slash nonempty (.inr (by simpa using ends))
        simpa using same
      · simp

theorem triedPaths_names {curpath : Str} {elements : List Str} (plain : ∀ element ∈ elements, ':' ∉ element)
    (safe : curpath = [] ∨ (([':'].intercalate elements).getLast? = some '/' →
      ∀ element ∈ elements, element = [] ∨ element.getLast? = some '/')) :
    (triedPaths curpath elements).map pathNames =
      (elements.map fun element => joinPath (if element.isEmpty then ['.'] else element) curpath).map pathNames := by
  induction elements with
  | nil => rfl
  | cons element elements ih =>
      obtain ⟨plain, plainRest⟩ := List.forall_mem_cons.mp plain
      have one : pathNames (cdpathElement _ curpath) = _ := cdpathElement_names elements plain
        (safe.imp_right fun listed ends => listed ends element List.mem_cons_self)
      have rest := ih plainRest (safe.imp_right fun listed ends other mem => by
        cases elements with
        | nil => cases mem
        | cons next elements =>
            exact listed ((intercalate_ending element next elements).mpr ends) other (List.mem_cons_of_mem _ mem))
      rw [triedPaths, List.map_cons, List.map_cons, List.map_cons, one, rest]

theorem findSome?_names {δ : Type} {directory : Str → Option δ}
    (names : ∀ path other, pathNames path = pathNames other → directory path = directory other)
    {paths others : List Str} (same : paths.map pathNames = others.map pathNames) :
    paths.findSome? directory = others.findSome? directory := by
  induction paths generalizing others with
  | nil =>
      have : others = [] := by simpa using same.symm
      rw [this]
  | cons path paths ih =>
      cases others with
      | nil => simp at same
      | cons other others =>
          obtain ⟨first, rest⟩ := List.cons.inj same
          rw [List.findSome?_cons, List.findSome?_cons, names path other first, ih rest]

/-- Paths with the same names lead to the same directory. -/
def GoByNames {δ : Type} (entries : Str → Entry δ) : Prop :=
  ∀ path other, pathNames path = pathNames other → (entries path).directory? = (entries other).directory?

theorem joinsAlike_of_safe {δ : Type} {entries : Str → Entry δ} (names : GoByNames entries) (here : δ)
    {cdpath curpath : Str} (safe : CdpathSafe cdpath curpath) : JoinsAlike entries here cdpath curpath := by
  have same : (triedPaths curpath (cdpath.splitOn ':')).map pathNames = (cdpathPaths cdpath curpath).map pathNames :=
    triedPaths_names (splitOn_plain cdpath) (by rwa [List.intercalate_splitOn])
  rw [JoinsAlike, firstDirectory, firstDirectory, List.findSome?_append, List.findSome?_append,
    findSome?_names names same]

/-! ## Machines with directories -/

/-- A machine with entries, and the directory that the shell is in. Its uninitialised memory always looks alike. -/
structure DirectoryMachine (δ : Type) (garbage : Int) where
  machine : Machine
  entries : Str → Entry δ
  cwd : δ

instance {δ : Type} {garbage : Int} : System (DirectoryMachine δ garbage) :=
  { (⟨DirectoryMachine.machine, fun world machine => { world with machine }⟩ :
      SystemPart (DirectoryMachine δ garbage) Machine).system with
    stat := fun path world =>
      match world.entries path with
      | .missing => (.error noEntry, world)
      | .file => (.ok 0x8000, world)
      | .directory _ => (.ok 0x4000, world)
    chdir := fun path world =>
      match world.entries path with
      | .directory dir => (.ok (), { world with cwd := dir })
      | _ => (.error noEntry, world)
    indeterminate := fun world => (garbage, world) }

section

variable {δ : Type} {garbage : Int}

theorem directoryMachine_stat (path : Str) (world : DirectoryMachine δ garbage) :
    System.stat path world = ((match world.entries path with
      | .missing => .error noEntry
      | .file => .ok 0x8000
      | .directory _ => .ok 0x4000 : Except Errno Int), world) := by
  change (match world.entries path with
    | .missing => (.error noEntry, world)
    | .file => (.ok 0x8000, world)
    | .directory _ => (.ok 0x4000, world) : Except Errno Int × DirectoryMachine δ garbage) = _
  cases world.entries path <;> rfl

theorem directoryMachine_laws : DirectoryLaws (DirectoryMachine δ garbage) δ (·.entries) (·.cwd) where
  stat_missing path world missing := ⟨noEntry, by rw [directoryMachine_stat, missing]⟩
  stat_file path world isFile := ⟨0x8000, by rw [directoryMachine_stat, isFile], by decide⟩
  stat_directory path world dir isDirectory := ⟨0x4000, by rw [directoryMachine_stat, isDirectory], by decide⟩
  stat_keeps path world := by rw [directoryMachine_stat]; exact ⟨rfl, rfl⟩
  indeterminate_keeps _ := ⟨rfl, rfl⟩
  chdir_enters path world dir isDirectory := by
    have replied : System.chdir path world = (match world.entries path with
      | .directory dir => (.ok (), { world with cwd := dir })
      | _ => (.error noEntry, world)) := rfl
    rw [replied, isDirectory]
    exact ⟨rfl, rfl⟩
  chdir_fails path world noDirectory := by
    have replied : System.chdir path world = (match world.entries path with
      | .directory dir => (.ok (), { world with cwd := dir })
      | _ => (.error noEntry, world)) := rfl
    refine ⟨noEntry, ?_⟩
    rw [replied]
    cases found : world.entries path with
    | directory dir =>
        rw [found] at noDirectory
        cases noDirectory
    | _ => exact ⟨rfl, rfl⟩
  getcwd_cwd _ := rfl
  printErr_cwd _ _ := rfl

/-- A shell with a list of directories. -/
def cdpathShell (garbage : Int) (entries : Str → Entry δ) (here : δ) (cdpath : Str) :
    Shell (DirectoryMachine δ garbage) :=
  { mrshStateCreate [] ⟨.isolated, entries, here⟩ with
    vars := Hashtable.empty.set "CDPATH".toList ⟨cdpath, .none⟩ }

theorem CdFindsDirectory.machine {entries : Str → Entry δ} {here : δ} {cdpath curpath : Str}
    (listed : usesCdpath curpath = true) (operand : curpath ≠ ['-'])
    (finds : CdFindsDirectory entries here cdpath curpath) (garbage : Int) :
    ∃ found, SearchEnds (· = sIsdir garbage) entries (triedPaths curpath (cdpath.splitOn ':')) found ∧
      goesTo entries here curpath found = firstDirectory entries here (cdpathPaths cdpath curpath ++ [curpath]) := by
  let state := cdpathShell garbage entries here cdpath
  have value : (state.vars.get "CDPATH".toList).map (·.value) = some cdpath := by
    have set := Hashtable.get_set (.empty : Table Variable) "CDPATH".toList "CDPATH".toList ⟨cdpath, .none⟩
    rw [if_pos rfl] at set
    exact congrArg (Option.map (·.value)) set
  have arguments : CdArgs curpath ["cd".toList, ['-', '-'], curpath] := .dashes _ []
  obtain ⟨found, ends, goes⟩ := builtinCd_cwd directoryMachine_laws listed operand arguments value
  refine ⟨found, ?_, goes.symm.trans (finds _ _ _ directoryMachine_laws _ state arguments value rfl rfl)⟩
  have answers : Answers (DirectoryMachine δ garbage) = (· = sIsdir garbage) := by
    funext answer
    exact propext ⟨fun ⟨_, same⟩ => same.symm, fun same => ⟨state.world, same.symm⟩⟩
  rwa [answers] at ends

end

/-! ## Lists that are not -/

theorem joined_tried {curpath element : Str} {elements : List Str} (plain : ∀ element ∈ elements, ':' ∉ element)
    (ends : ([':'].intercalate elements).getLast? = some '/') (member : element ∈ elements) (nonempty : element ≠ []) :
    element ++ curpath ∈ triedPaths curpath elements := by
  induction elements with
  | nil => cases member
  | cons first elements ih =>
      obtain ⟨plain, plainRest⟩ := List.forall_mem_cons.mp plain
      rcases List.mem_cons.mp member with rfl | later
      · rcases cdpathElement_cases elements plain nonempty curpath with ⟨joined, -⟩ | ⟨-, other⟩
        · rw [triedPaths, joined]
          exact List.mem_cons_self
        · exact absurd ends other
      · cases elements with
        | nil => cases later
        | cons next elements =>
            exact List.mem_cons_of_mem _ (ih plainRest ((intercalate_ending first next elements).mp ends) later)

theorem joinPath_names {element curpath : Str} (nonempty : element ≠ []) (unslashed : element.getLast? ≠ some '/')
    (operand : curpath ≠ []) (relative : curpath.head? ≠ some '/') (basedir : Str) :
    pathNames (joinPath basedir curpath) ≠ pathNames (element ++ curpath) := by
  obtain ⟨before, joined⟩ : ∃ before, joinPath basedir curpath = before ++ '/' :: curpath := by
    rw [joinPath]
    split
    · rename_i ends
      obtain ⟨before, rfl⟩ := getLast?_slash (by simpa using ends)
      exact ⟨before, by simp⟩
    · exact ⟨basedir, by simp⟩
  intro same
  rw [joined] at same
  exact tokens_joined_ne nonempty unslashed operand relative before (Prod.mk.inj same).2

theorem usesCdpath_relative {curpath : Str} (listed : usesCdpath curpath = true) : curpath.head? ≠ some '/' := by
  rw [usesCdpath, Bool.and_eq_true, Bool.and_eq_true] at listed
  simpa using listed.1.1

/-- The path with these names is the only directory, and the others are files. -/
def onlyDirectory (path other : Str) : Entry Bool :=
  if pathNames other = pathNames path then .directory true else .file

theorem onlyDirectory_names (path : Str) : GoByNames (onlyDirectory path) := by
  intro first second same
  rw [onlyDirectory, onlyDirectory, same]

theorem onlyDirectory_present (path other : Str) : onlyDirectory path other ≠ .missing := by
  rw [onlyDirectory]
  split <;> simp

theorem onlyDirectory_first {path : Str} {paths : List Str} (present : path ∈ paths) :
    firstDirectory (onlyDirectory path) false paths = true := by
  induction paths with
  | nil => cases present
  | cons other paths ih =>
      rw [firstDirectory, List.findSome?_cons, onlyDirectory]
      split
      · rename_i found
        split at found
        · cases found
          rfl
        · cases found
      · rename_i missing
        rcases List.mem_cons.mp present with rfl | later
        · rw [if_pos rfl] at missing
          cases missing
        · exact ih later

/-- With only the path that joins the element and the operand without a slash,
`cd` goes there. -/
theorem not_joinsAlike {cdpath curpath element : Str} (listed : usesCdpath curpath = true) (given : curpath ≠ [])
    (ends : cdpath.getLast? = some '/') (member : element ∈ cdpath.splitOn ':') (nonempty : element ≠ [])
    (unslashed : element.getLast? ≠ some '/') :
    ¬ JoinsAlike (onlyDirectory (element ++ curpath)) false cdpath curpath := by
  intro alike
  have relative := usesCdpath_relative listed
  have tried : element ++ curpath ∈ triedPaths curpath (cdpath.splitOn ':') :=
    joined_tried (splitOn_plain cdpath) (by rwa [List.intercalate_splitOn]) member nonempty
  rw [JoinsAlike, onlyDirectory_first (List.mem_append_left [curpath] tried), firstDirectory,
    List.findSome?_eq_none_iff.mpr] at alike
  · cases alike
  · intro path listedPath
    refine congrArg Entry.directory? (if_neg fun same => ?_)
    rcases List.mem_append.mp listedPath with listedPath | itself
    · obtain ⟨basedir, -, rfl⟩ := List.mem_map.mp listedPath
      exact joinPath_names nonempty unslashed given relative _ same
    · rw [List.mem_singleton.mp itself] at same
      refine tokens_joined_ne nonempty unslashed given relative [] ?_
      rw [tokens_append, tokens_nil, List.nil_append]
      exact (Prod.mk.inj same).2

/-! ## When it is searched right -/

theorem joinsAlike_iff {curpath : Str} (listed : usesCdpath curpath = true) (cdpath : Str) :
    (∀ {δ : Type} (entries : Str → Entry δ) (here : δ), GoByNames entries → JoinsAlike entries here cdpath curpath) ↔
      CdpathSafe cdpath curpath := by
  refine ⟨fun alike => ?_, fun safe _ _ here names => joinsAlike_of_safe names here safe⟩
  by_contra unsafe_
  simp only [CdpathSafe, not_or, not_forall] at unsafe_
  obtain ⟨given, ends, element, member, nonempty, unslashed⟩ := unsafe_
  exact not_joinsAlike listed given ends member nonempty unslashed (alike _ false (onlyDirectory_names _))

/-- `cd` finds the first directory exactly if the paths that it makes lead there as well, and none
of those that it tries before is missing. The paths that it makes lead to the same directory
whatever directories there are exactly if the list does not end with a slash or all its
elements do. -/
theorem cdFindsDirectory_iff {curpath : Str} (listed : usesCdpath curpath = true) (operand : curpath ≠ ['-'])
    (cdpath : Str) :
    (∀ {δ : Type} (entries : Str → Entry δ) (here : δ), CdFindsDirectory entries here cdpath curpath ↔
      JoinsAlike entries here cdpath curpath ∧ TriesPresent entries here cdpath curpath) ∧
    ((∀ {δ : Type} (entries : Str → Entry δ) (here : δ), GoByNames entries →
      JoinsAlike entries here cdpath curpath) ↔ CdpathSafe cdpath curpath) := by
  refine ⟨fun entries here => ⟨fun finds => ?_, fun ⟨alike, present⟩ => ?_⟩, joinsAlike_iff listed cdpath⟩
  · constructor
    · obtain ⟨found, ends, goes⟩ := finds.machine listed operand 0
      rcases ends.goesTo_first curpath here with first | ⟨mistaken, _⟩
      · exact first.symm.trans goes
      · exact absurd mistaken (by decide)
    · by_cases missing : ∃ path ∈ (triedPaths curpath (cdpath.splitOn ':')).takeWhile
          fun path => (entries path).directory?.isNone, entries path = .missing
      · obtain ⟨path, tried, missing⟩ := missing
        obtain ⟨found, ends, goes⟩ := finds.machine listed operand 0x4000
        exact .inr (goes.symm.trans (ends.goesTo_missing (by decide) tried missing curpath here))
      · exact .inl fun path tried isMissing => missing ⟨path, tried, isMissing⟩
  · intro World _ entry cwd laws args state given value sameEntries sameCwd
    obtain ⟨found, ends, goes⟩ := builtinCd_cwd laws listed operand given value
    rw [sameEntries, sameCwd] at goes
    rw [sameEntries] at ends
    rw [goes]
    rcases ends.goesTo_first curpath here with first | ⟨_, ⟨path, tried, missing⟩, stays⟩
    · exact first.trans alike
    · rcases present with present | nowhere
      · exact absurd missing (present path tried)
      · exact stays.trans nowhere.symm

/-- With the list `/a:/b`, `cd x` goes to `/b/x` behind a file `/a/x`. -/
theorem cdFindsDirectory_second :
    CdFindsDirectory (onlyDirectory "/b/x".toList) false "/a:/b".toList "x".toList :=
  ((cdFindsDirectory_iff (by decide) (by decide) _).1 _ _).mpr
    ⟨joinsAlike_of_safe (onlyDirectory_names _) _ (.inr (by decide)), .inl fun _ _ => onlyDirectory_present _ _⟩

/-- With the list `/a:/b/`, `cd x` goes to `/ax`. -/
theorem not_cdFindsDirectory_joined :
    ¬ CdFindsDirectory (onlyDirectory "/ax".toList) false "/a:/b/".toList "x".toList := by
  intro finds
  have listed : usesCdpath "x".toList = true := by decide
  have member : "/a".toList ∈ ("/a:/b/".toList.splitOn ':') := by decide
  obtain ⟨found, ends, goes⟩ := finds.machine listed (by decide) 0
  rcases ends.goesTo_first "x".toList false with first | ⟨mistaken, _⟩
  · exact not_joinsAlike listed (by decide) (by decide) member (by decide) (by decide) (first.symm.trans goes)
  · exact absurd mistaken (by decide)

end Mrsh
