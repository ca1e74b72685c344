import Mrsh.Shell.AtSign
import Mrsh.Shell.Breaking
import Mrsh.Shell.FieldSplitting

namespace Mrsh

open Mrsh.Data

/-! # Commands that expand to nothing

`run_simple_command` asserts that the name and the arguments leave at least one field. A word leaves none
exactly if nothing but delimiters is in it, since a second one that is no space ends an empty field.
-/

/-! ## Words without fields -/

def Piece.isDelimiter : Piece → Bool
  | .space | .separator => true
  | .plain _ | .doubleQuoted _ => false

def Piece.isSeparator : Piece → Bool
  | .separator => true
  | _ => false

/-- The word is built of strings that hold only delimiters, and at most one of these is no space. -/
def vanishes (ifs : Option Str) (word : Word) : Bool :=
  let found := pieces (ifs.getD defaultIfs) word
  ifs != some [] && isExpanded word && found.all Piece.isDelimiter && decide (found.countP Piece.isSeparator ≤ 1)

/-- Whether the splitter has passed a separator, if it has found no field yet. -/
def SplitFieldsData.blank (data : SplitFieldsData) : Option Bool :=
  if data.fields = [] ∧ data.curField = none ∧ data.inIfs = true then some data.inIfsNonSpace else none

def passPiece : Option Bool → Piece → Option Bool
  | some passed, .space => some passed
  | some false, .separator => some true
  | _, _ => none

theorem passPieces_none (found : List Piece) : found.foldl passPiece none = none := by
  induction found with
  | nil => rfl
  | cons piece found ih => exact ih

theorem passPieces_some (found : List Piece) (passed : Bool) :
    (found.foldl passPiece (some passed)).isSome = true ↔
      found.all Piece.isDelimiter = true ∧ found.countP Piece.isSeparator + passed.toNat ≤ 1 := by
  induction found generalizing passed with
  | nil => cases passed <;> simp
  | cons piece found ih =>
      cases piece with
      | space => simpa [passPiece, Piece.isDelimiter, Piece.isSeparator] using ih passed
      | separator =>
          cases passed with
          | false =>
              rw [List.foldl_cons, List.all_cons, List.countP_cons_of_pos rfl]
              exact (ih true).trans (by simp [Piece.isDelimiter])
          | true => simp [passPiece, passPieces_none, Piece.isSeparator]
      | plain text => simp [passPiece, passPieces_none, Piece.isDelimiter]
      | doubleQuoted text => simp [passPiece, passPieces_none, Piece.isDelimiter]

theorem blank_of_fields {data : SplitFieldsData} (found : data.fields ≠ [] ∨ data.curField ≠ none) :
    data.blank = none := by
  rw [SplitFieldsData.blank, if_neg]
  intro ⟨noField, noCurrent, _⟩
  exact found.elim (· noField) (· noCurrent)

theorem addToCurField_blank (data : SplitFieldsData) (word : Word) : (addToCurField data word).blank = none :=
  blank_of_fields (.inr nofun)

theorem splitFieldsStr_blank {ifs : Str} (str : Str) (data : SplitFieldsData) (buf : Str) (ifs_eq : data.ifs = ifs)
    (nonSpace_eq : data.ifsNonSpace = ifs.filter (!isSpace ·)) :
    (splitFieldsStr data buf str).blank = (str.map (charPiece ifs)).foldl passPiece data.blank := by
  induction str generalizing data buf with
  | nil =>
      rw [splitFieldsStr, List.map_nil, List.foldl_nil]
      split
      · rfl
      · rename_i outside
        rw [addToCurField_blank, SplitFieldsData.blank, if_neg fun blank => outside blank.2.2]
  | cons c str ih =>
      rw [splitFieldsStr, List.map_cons, List.foldl_cons]
      by_cases delimiter : c ∈ data.ifs
      · have nonSpace : c ∈ data.ifsNonSpace ↔ isSpace c = false := by
          simp [nonSpace_eq, ← ifs_eq, delimiter]
        rw [if_neg (not_not_intro delimiter), charPiece_delimiter (ifs_eq ▸ delimiter)]
        split
        · rename_i ends
          have rest := ih { endCurField (addToCurField data (mrshWordStringCreate buf false)) with inIfs := true } []
            ifs_eq nonSpace_eq
          refine rest.trans (congrArg (List.foldl passPiece · _) ?_)
          rw [blank_of_fields (.inl (by simp [endCurField, addToCurField])), SplitFieldsData.blank]
          split
          · rename_i blank
            obtain ⟨separator, passed⟩ : c ∈ data.ifsNonSpace ∧ data.inIfsNonSpace = true := by
              simpa [blank.2.2] using ends
            simp [passed, nonSpace.mp separator, passPiece]
          · rfl
        · rename_i goesOn
          have inside : data.inIfs = true := by
            cases inside : data.inIfs <;> simp [inside] at goesOn ⊢
          split
          · rename_i separator
            have unpassed : data.inIfsNonSpace = false := by simpa [inside, separator] using goesOn
            have rest := ih { data with inIfsNonSpace := true } buf ifs_eq nonSpace_eq
            refine rest.trans (congrArg (List.foldl passPiece · _) ?_)
            by_cases blank : data.fields = [] ∧ data.curField = none
            · simp [SplitFieldsData.blank, blank, inside, unpassed, nonSpace.mp separator, passPiece]
            · rw [blank_of_fields (by tauto), blank_of_fields (by tauto)]
              rfl
          · rename_i space
            rw [nonSpace, Bool.not_eq_false] at space
            refine (ih _ _ ifs_eq nonSpace_eq).trans (congrArg (List.foldl passPiece · _) ?_)
            rw [space]
            cases data.blank <;> rfl
      · rw [if_pos delimiter, charPiece_other (ifs_eq ▸ delimiter)]
        have rest := ih { data with inIfs := false, inIfsNonSpace := false } (buf ++ [c]) ifs_eq nonSpace_eq
        refine rest.trans (congrArg (List.foldl passPiece · _) ?_)
        simp only [SplitFieldsData.blank, Bool.false_eq_true, and_false, if_false]
        split <;> rfl

mutual

theorem splitFieldsIn_blank {ifs : Str} : (word : Word) → {data after : SplitFieldsData} → data.Settled ifs →
    splitFieldsIn data word = some after →
    after.Settled ifs ∧ after.blank = (pieces ifs word).foldl passPiece data.blank ∧
      (after.blank ≠ none → isExpanded word = true)
  | .string str singleQuoted split range, data, after, settled, found => by
      rw [splitFieldsIn] at found
      by_cases whole : (singleQuoted || !split) = true
      · rw [if_pos whole] at found
        cases found
        refine ⟨⟨settled.ifs_eq, settled.nonSpace_eq, by simp [addToCurField]⟩, ?_, fun _ => rfl⟩
        rw [pieces, if_pos whole]
        refine (blank_of_fields (.inr (by simp [addToCurField]))).trans ?_
        cases data.blank <;> rfl
      · rw [if_neg whole] at found
        cases found
        refine ⟨(splitFieldsStr_view str data [] settled.ifs_eq settled.nonSpace_eq fun _ => rfl).1, ?_, fun _ => rfl⟩
        rw [pieces, if_neg whole]
        exact splitFieldsStr_blank str data [] settled.ifs_eq settled.nonSpace_eq
  | .list children true _ _, data, after, settled, found => by
      rw [splitFieldsIn] at found
      obtain ⟨copy, -, found⟩ := Option.bind_eq_some_iff.mp found
      cases found
      refine ⟨⟨settled.ifs_eq, settled.nonSpace_eq, by simp [addToCurField]⟩, ?_, ?_⟩
      · rw [addToCurField_blank, pieces]
        cases data.blank <;> rfl
      · rw [addToCurField_blank]
        exact fun some_ => absurd rfl some_
  | .list children false _ _, data, after, settled, found => splitFieldsChildren_blank children settled found
  | .parameter _, _, _, _, found => nomatch found
  | .command _ _ _, _, _, _, found => nomatch found
  | .arithmetic _, _, _, _, found => nomatch found
  | .null, _, _, _, found => nomatch found

theorem splitFieldsChildren_blank {ifs : Str} : (children : List Word) → {data after : SplitFieldsData} →
    data.Settled ifs → splitFieldsChildren data children = some after →
    after.Settled ifs ∧ after.blank = (piecesOfChildren ifs children).foldl passPiece data.blank ∧
      (after.blank ≠ none → areExpanded children = true)
  | [], data, after, settled, found => by
      cases found
      exact ⟨settled, rfl, fun _ => rfl⟩
  | child :: children, data, after, settled, found => by
      rw [splitFieldsChildren] at found
      obtain ⟨between, first, rest⟩ := Option.bind_eq_some_iff.mp found
      obtain ⟨betweenSettled, firstBlank, firstExpanded⟩ := splitFieldsIn_blank child settled first
      obtain ⟨afterSettled, restBlank, restExpanded⟩ := splitFieldsChildren_blank children betweenSettled rest
      refine ⟨afterSettled, by rw [restBlank, firstBlank, piecesOfChildren, List.foldl_append], fun blank => ?_⟩
      have betweenBlank : between.blank ≠ none := by
        intro none
        rw [restBlank, none, passPieces_none] at blank
        exact blank rfl
      rw [areExpanded, firstExpanded betweenBlank, restExpanded blank]
      rfl

end

theorem splitFields_nil_iff (ifs : Option Str) (word : Word) :
    splitFields word ifs = some [] ↔ vanishes ifs word = true := by
  by_cases empty : ifs = some []
  · have one : splitFields word ifs ≠ some [] := by
      rw [splitFields, empty]
      cases mrshWordCopy 0 word <;> simp
    exact iff_of_false one (by simp [vanishes, empty])
  · have notEmpty : (ifs.getD defaultIfs).isEmpty = false := by
      cases ifs with
      | none => rfl
      | some ifs => simpa using empty
    let data : SplitFieldsData :=
      ⟨[], none, ifs.getD defaultIfs, (ifs.getD defaultIfs).filter (!isSpace ·), true, false⟩
    have settled : data.Settled (ifs.getD defaultIfs) := ⟨rfl, rfl, by intro isSome; cases isSome⟩
    have unfolded : splitFields word ifs = (splitFieldsIn data word).bind fun after =>
        some (endCurField after).fields := by
      rw [splitFields, notEmpty]
      rfl
    have start : data.blank = some false := rfl
    constructor
    · intro noFields
      rw [unfolded] at noFields
      obtain ⟨after, split, noFields⟩ := Option.bind_eq_some_iff.mp noFields
      obtain ⟨afterSettled, blank, expanded⟩ := splitFieldsIn_blank word settled split
      obtain ⟨noField, noCurrent⟩ : after.fields = [] ∧ after.curField = none := by
        simpa [endCurField] using noFields
      have inside : after.inIfs = true := by
        by_contra outside
        exact afterSettled.open_field (by simpa using outside) noCurrent
      have isBlank : after.blank = some after.inIfsNonSpace := if_pos ⟨noField, noCurrent, inside⟩
      have passed := (passPieces_some (pieces (ifs.getD defaultIfs) word) false).mp (by
        rw [← start, ← blank, isBlank]
        rfl)
      have few : (pieces (ifs.getD defaultIfs) word).countP Piece.isSeparator ≤ 1 := by simpa using passed.2
      simp only [vanishes, expanded (by simp [isBlank]), passed.1, few]
      simpa using empty
    · intro vanish
      simp only [vanishes, Bool.and_eq_true, decide_eq_true_eq] at vanish
      obtain ⟨⟨⟨-, expanded⟩, delimiters⟩, few⟩ := vanish
      have passed := (passPieces_some (pieces (ifs.getD defaultIfs) word) false).mpr ⟨delimiters, by simpa using few⟩
      obtain ⟨after, split, -, -⟩ := splitFieldsIn_view word expanded data settled
      obtain ⟨-, blank, -⟩ := splitFieldsIn_blank word settled split
      rw [← start, ← blank, SplitFieldsData.blank] at passed
      split at passed
      · rename_i isBlank
        simp [unfolded, split, endCurField, isBlank]
      · cases passed

/-! ## Words that expand to nothing -/

section

variable {World : Type} [System World] (self : Tasks World) (ctx : Context)

/-- `expand_word` up to field splitting. -/
def expandUnsplit (word : Word) : Exec World (Int × Word) := do
  let word ← leaf (copyWord word)
  let word ← leaf (expandTildeWord word false)
  runWord self ctx word

/-- `expand_word` from field splitting on. -/
def expandFields (ret : Int) (word : Word) : Exec World (Int × List Str) :=
  if ret < 0 then pure (ret, [])
  else do
    let ifs ← leaf (envValue "IFS".toList)
    let fields ← leaf (orCrash (splitFields word ifs))
    if ← leaf (optionSet .noglob) then
      let strs ← leaf (orCrash (getFieldsStr fields))
      pure (ret, strs)
    else
      match ← leaf (expandPathnames fields) with
      | none => pure (taskStatusError, [])
      | some strs => pure (ret, strs)

/-- `glob` succeeds with at least one path. -/
def GlobFindsPaths (World : Type) [System World] : Prop :=
  ∀ (pattern : Str) (world : World) (paths : List Str), (System.glob pattern world).1 = .paths paths → paths ≠ []

/-- Each of the words is expanded without an error, and no field comes of any. -/
def allVanish : List Word → Shell World → Bool
  | [], _ => true
  | word :: words, state =>
      match Exec.run (expandUnsplit self ctx word) state with
      | .done (ret, expanded) after => decide (0 ≤ ret) && vanishes (ifsOf after) expanded && allVanish words after
      | .stopped _ _ => false

theorem expandWord_run (word : Word) (state : Shell World) :
    Exec.run (expandWord self ctx word) state =
      (Exec.run (expandUnsplit self ctx word) state).andThen fun result after =>
        Exec.run (expandFields result.1 result.2) after := by
  simp only [expandWord, expandUnsplit, Exec.run_bind, Outcome.andThen_assoc]
  rfl

theorem expandPathname_some {field : Word} {state after : Shell World} {strs : List Str} (finds : GlobFindsPaths World)
    (ended : Leaf.run (expandPathname field) state = .done (some strs) after) : strs ≠ [] := by
  obtain ⟨converted, between, -, ended⟩ := Leaf.run_bind_done.mp ended
  have one {state : Shell World} (ended : Leaf.run (do
      let str ← orCrash (mrshWordStr field)
      pure (some [str])) state = .done (some strs) after) : strs ≠ [] := by
    obtain ⟨str, _, -, ended⟩ := Leaf.run_bind_done.mp ended
    cases ended
    exact List.cons_ne_nil _ _
  cases converted with
  | none => exact one ended
  | some pattern =>
      obtain ⟨_, _, -, ended⟩ := Leaf.run_bind_done.mp ended
      obtain ⟨globbed, _, called, ended⟩ := Leaf.run_bind_done.mp ended
      cases globbed with
      | paths paths =>
          cases ended
          exact finds pattern _ strs (congrArg Outcome.value? called |> Option.some.inj)
      | noMatch => exact one ended
      | failed code =>
          obtain ⟨_, _, -, ended⟩ := Leaf.run_bind_done.mp ended
          cases ended

theorem expandPathnames_nil_iff {fields : List Word} {state after : Shell World} {strs : List Str}
    (finds : GlobFindsPaths World) (ended : Leaf.run (expandPathnames fields) state = .done (some strs) after) :
    strs = [] ↔ fields = [] := by
  cases fields with
  | nil =>
      cases ended
      simp
  | cons field fields =>
      obtain ⟨first, between, expanded, ended⟩ := Leaf.run_bind_done.mp ended
      cases first with
      | none => cases ended
      | some first =>
          obtain ⟨rest, _, -, ended⟩ := Leaf.run_bind_done.mp ended
          cases rest with
          | none => cases ended
          | some rest =>
              cases ended
              have some_ := expandPathname_some finds expanded
              simp [some_]

theorem getFieldsStr_nil_iff {fields : List Word} {strs : List Str} (read : getFieldsStr fields = some strs) :
    strs = [] ↔ fields = [] := by
  cases fields with
  | nil =>
      cases read
      simp
  | cons field fields =>
      rw [getFieldsStr, List.mapM_cons] at read
      obtain ⟨str, -, read⟩ := Option.bind_eq_some_iff.mp read
      obtain ⟨rest, -, read⟩ := Option.bind_eq_some_iff.mp read
      cases read
      simp

theorem expandFields_nil_iff (finds : GlobFindsPaths World) {ret status : Int} {word : Word} {state after : Shell World}
    {strs : List Str} (ended : Exec.run (expandFields ret word) state = .done (status, strs) after)
    (natural : 0 ≤ status) :
    status = ret ∧ (strs = [] ↔ vanishes (ifsOf state) word = true) := by
  rw [expandFields, Exec.run_ite] at ended
  split at ended
  · rename_i negative
    cases ended
    omega
  · obtain ⟨ifs, _, read, ended⟩ := Exec.run_bind_done.mp ended
    cases read
    obtain ⟨fields, between, split, ended⟩ := Exec.run_bind_done.mp ended
    have found : splitFields word (ifsOf state) = some fields := by
      rw [Exec.run_leaf] at split
      change Leaf.run (orCrash (splitFields word (ifsOf state))) state = _ at split
      cases found : splitFields word (ifsOf state) <;> rw [found] at split <;> cases split
      rfl
    have vanish := splitFields_nil_iff (ifsOf state) word
    rw [found, Option.some_inj] at vanish
    rw [← vanish]
    obtain ⟨noglob, _, -, ended⟩ := Exec.run_bind_done.mp ended
    rw [Exec.run_ite] at ended
    split at ended
    · obtain ⟨texts, _, read, ended⟩ := Exec.run_bind_done.mp ended
      cases ended
      cases found : getFieldsStr fields <;> rw [found] at read <;> cases read
      exact ⟨rfl, getFieldsStr_nil_iff found⟩
    · obtain ⟨paths, _, expanded, ended⟩ := Exec.run_bind_done.mp ended
      cases paths with
      | none =>
          cases ended
          exact absurd natural (by decide)
      | some paths =>
          cases ended
          rw [Exec.run_leaf] at expanded
          exact ⟨rfl, expandPathnames_nil_iff finds expanded⟩

theorem expandFields_vanishes {ret : Int} {word : Word} {state : Shell World} (natural : 0 ≤ ret)
    (vanish : vanishes (ifsOf state) word = true) : Exec.run (expandFields ret word) state = .done (ret, []) state := by
  have split := (splitFields_nil_iff (ifsOf state) word).mpr vanish
  rw [ifsOf] at split
  rw [expandFields, Exec.run_ite, if_neg (by omega), Exec.run_bind, Exec.run_leaf, envValue, Leaf.run_gets,
    Outcome.andThen_done, Exec.run_bind, Exec.run_leaf, split, orCrash_some, Leaf.run_pure, Outcome.andThen_done,
    Exec.run_bind, Exec.run_leaf, optionSet, Leaf.run_gets, Outcome.andThen_done, Exec.run_ite]
  split <;> rfl

theorem expandWords_nil_iff (finds : GlobFindsPaths World) {words : List Word} {state after : Shell World} {ret : Int}
    {args : List Str} (ended : Exec.run (expandWords self ctx words) state = .done (ret, args) after)
    (natural : 0 ≤ ret) :
    args = [] ↔ allVanish self ctx words state = true := by
  induction words generalizing state ret args with
  | nil =>
      cases ended
      simp [allVanish]
  | cons word words ih =>
      obtain ⟨⟨status, strs⟩, between, expanded, ended⟩ := Exec.run_bind_done.mp ended
      rw [expandWord_run] at expanded
      obtain ⟨⟨wordRet, unsplit⟩, middle, ran, expanded⟩ := Outcome.andThen_eq_done.mp expanded
      rw [Exec.run_ite] at ended
      split at ended
      · cases ended
        omega
      · obtain ⟨⟨restRet, rest⟩, _, restExpanded, ended⟩ := Exec.run_bind_done.mp ended
        cases ended
        rename_i notNegative
        obtain ⟨same, first⟩ := expandFields_nil_iff finds expanded (by omega)
        have wordNatural : 0 ≤ wordRet := by omega
        rw [List.append_eq_nil_iff, allVanish, ran, first]
        simp only [wordNatural, decide_true, Bool.true_and, Bool.and_eq_true]
        refine and_congr_right fun vanish => ?_
        have unchanged : middle = between := by
          rw [expandFields_vanishes wordNatural vanish] at expanded
          cases expanded
          rfl
        rw [unchanged]
        exact ih restExpanded natural

theorem expandWords_vanish {words : List Word} {state : Shell World} (vanish : allVanish self ctx words state = true) :
    ∃ after, Exec.run (expandWords self ctx words) state = .done (0, []) after := by
  induction words generalizing state with
  | nil => exact ⟨state, rfl⟩
  | cons word words ih =>
      rw [allVanish] at vanish
      cases ran : Exec.run (expandUnsplit self ctx word) state with
      | stopped reason after =>
          rw [ran] at vanish
          cases vanish
      | done result middle =>
          obtain ⟨ret, unsplit⟩ := result
          rw [ran] at vanish
          simp only [Bool.and_eq_true, decide_eq_true_eq] at vanish
          obtain ⟨⟨natural, first⟩, rest⟩ := vanish
          obtain ⟨after, restRun⟩ := ih rest
          refine ⟨after, ?_⟩
          rw [expandWords, Exec.run_bind, expandWord_run, ran, Outcome.andThen_done,
            expandFields_vanishes natural first, Outcome.andThen_done, Exec.run_ite, if_neg (by omega), Exec.run_bind,
              restRun]
          rfl

/-! ## The assertion -/

/-- `run_simple_command` up to the expansion of the name. -/
def copyCommand (sc : SimpleCommand) : Exec World SimpleCommand := do
  record .simpleCommand
  let generation ← leaf newSerial
  leaf (orCrash (simpleCommandCopy generation sc))

/-- The name and the arguments leave an argument unless their expansion fails. -/
def AssertionHolds (sc : SimpleCommand) (state : Shell World) : Prop :=
  ∀ name copy start ret args after, sc.name = some name → Exec.run (copyCommand sc) state = .done copy start →
    Exec.run (expandWords self ctx (name :: copy.arguments)) start = .done (ret, args) after → 0 ≤ ret →
      0 < args.length

/-- The name and all arguments of the command are expanded to nothing. -/
def expandsToNothing (sc : SimpleCommand) (state : Shell World) : Bool :=
  match sc.name, Exec.run (copyCommand sc) state with
  | some name, .done copy start => allVanish self ctx (name :: copy.arguments) start
  | _, _ => false

/-- The assertion fails exactly for the commands of which each word expands to nothing but delimiters. -/
theorem assertionHolds_iff (finds : GlobFindsPaths World) (sc : SimpleCommand) (state : Shell World) :
    AssertionHolds self ctx sc state ↔ expandsToNothing self ctx sc state = false := by
  rw [expandsToNothing]
  split
  · rename_i name copy start named copied
    rw [← Bool.not_eq_true]
    constructor
    · intro holds vanish
      obtain ⟨after, expanded⟩ := expandWords_vanish self ctx vanish
      exact absurd (holds name copy start 0 [] after named copied expanded (by decide)) (by simp)
    · intro some_ other copy' start' ret args after named' copied' expanded natural
      cases named.symm.trans named'
      cases copied.symm.trans copied'
      rw [List.length_pos_iff, Ne, expandWords_nil_iff self ctx finds expanded natural]
      exact some_
  · rename_i fails
    refine iff_of_true (fun name copy start ret args after named copied => ?_) rfl
    exact absurd copied (fails name copy start named)

/-- A failure of the assertion ends the shell. -/
theorem runSimpleCommand_aborts {sc : SimpleCommand} {state : Shell World}
    (nothing : expandsToNothing self ctx sc state = true) :
    ∃ after, Exec.run (runSimpleCommand self ctx sc) state = .stopped .aborted after := by
  rw [expandsToNothing] at nothing
  split at nothing
  · rename_i name copy start named copied
    obtain ⟨after, expanded⟩ := expandWords_vanish self ctx nothing
    obtain ⟨next, split⟩ : ∃ next : SimpleCommand → _ → Exec World Int, Exec.run (runSimpleCommand self ctx sc) state =
        (Exec.run (copyCommand sc) state).andThen fun copy start =>
          Exec.run (expandCommand self ctx copy name >>= next copy) start := by
      rw [runSimpleCommand, named]
      simp only [copyCommand, Exec.run_bind, Outcome.andThen_assoc]
      exact ⟨_, rfl⟩
    refine ⟨after, ?_⟩
    rw [split, copied, Outcome.andThen_done, Exec.run_bind, expandCommand, Exec.run_bind, expanded]
    rfl
  · cases nothing

end

/-! ## An unset variable -/

theorem globFindsPaths_machine : GlobFindsPaths Machine := nofun

/-- `echo`, where the assertion holds. -/
theorem assertionHolds_echo : AssertionHolds (tasks 3) inJob (literalCommand "echo".toList []) newShell :=
  (assertionHolds_iff (tasks 3) inJob globFindsPaths_machine _ newShell).mpr (by decide +kernel)

/-- `$unset` -/
def unsetCommand : SimpleCommand :=
  { literalCommand [] [] with
    name := some (.parameter ⟨"unset".toList, .none, false, none, .invalid, .invalid, .invalid, .invalid, .invalid⟩) }

/-- The command `$unset` aborts the shell. -/
theorem assertionFails_unset :
    ¬ ∀ (fuel : Nat) (ctx : Context) (sc : SimpleCommand) (state : Shell Machine),
      AssertionHolds (tasks fuel) ctx sc state := by
  intro always
  have nothing : expandsToNothing (tasks 3) inJob unsetCommand newShell = true := by decide +kernel
  have some_ := assertionHolds_iff (tasks 3) inJob globFindsPaths_machine unsetCommand newShell
  have some_ := some_.mp (always 3 inJob unsetCommand newShell)
  rw [nothing] at some_
  cases some_

theorem runSimpleCommand_aborts_unset :
    ∃ after, Exec.run (runSimpleCommand (tasks 3) inJob unsetCommand) newShell = .stopped .aborted after :=
  runSimpleCommand_aborts (tasks 3) inJob (by decide +kernel)

end Mrsh
