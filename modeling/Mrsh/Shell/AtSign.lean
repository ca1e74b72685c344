import Mrsh.Shell.FieldSplitting
import Mrsh.Shell.Task.Task

namespace Mrsh

open Mrsh.Data

/-! # The positional parameters in double quotes

`"$@"` is expanded to the parameters as single-quoted strings, with the first
character of IFS between them, in a list that is taken out of the double quotes.
Field splitting then has to cut at these characters, and only there.
-/

/-- The strings before the first field and after the last one become part of them. -/
def embedFields {β : Type} (pre post : List β) : List (List β) → List (List β)
  | [] => []
  | [field] => [pre ++ field ++ post]
  | field :: fields => (pre ++ field) :: embedFields [] post fields

theorem embedFields_cons_cons {β : Type} (pre post field next : List β) (fields : List (List β)) :
    embedFields pre post (field :: next :: fields) =
      (pre ++ field) :: embedFields [] post (next :: fields) := rfl

theorem embedFields_nil {β : Type} (fields : List (List β)) : embedFields [] [] fields = fields := by
  induction fields with
  | nil => rfl
  | cons field fields ih =>
      cases fields with
      | nil => simp [embedFields]
      | cons next fields => rw [embedFields_cons_cons, ih, List.nil_append]

theorem length_embedFields {β : Type} (pre post : List β) (fields : List (List β)) :
    (embedFields pre post fields).length = fields.length := by
  induction fields generalizing pre with
  | nil => rfl
  | cons field fields ih =>
      cases fields with
      | nil => rfl
      | cons next fields => simp only [embedFields_cons_cons, List.length_cons, ih]

theorem map_embedFields {β γ : Type} (change : β → γ) (pre post : List β) (fields : List (List β)) :
    (embedFields pre post fields).map (List.map change) =
      embedFields (pre.map change) (post.map change) (fields.map (List.map change)) := by
  induction fields generalizing pre with
  | nil => rfl
  | cons field fields ih =>
      cases fields with
      | nil => simp [embedFields]
      | cons next fields =>
          rw [embedFields_cons_cons, List.map_cons, ih]
          simp only [List.map_cons, embedFields_cons_cons, List.map_append, List.map_nil]

/-! ## Running the word -/

section

variable {World : Type} [System World]

mutual

theorem runWordIn_expanded (self : Tasks World) (ctx : Context) (doubleQuoted : Bool) :
    (word : Word) → isExpanded word = true → runWordIn self ctx doubleQuoted word = pure (0, word)
  | .string _ _ _ _, _ => rfl
  | .list children listQuoted lquotePos rquotePos, expanded => by
      rw [runWordIn, runWords_expanded self ctx _ listQuoted children expanded]
      have unflagged : (children.map (·, false)).any Prod.snd = false := by
        simp
      simp [finishList, unflagged, Function.comp_def]
  | .parameter _, expanded => by simp [isExpanded] at expanded
  | .command _ _ _, expanded => by simp [isExpanded] at expanded
  | .arithmetic _, expanded => by simp [isExpanded] at expanded
  | .null, expanded => by simp [isExpanded] at expanded

theorem runWords_expanded (self : Tasks World) (ctx : Context) (doubleQuoted listQuoted : Bool) :
    (words : List Word) → areExpanded words = true →
    runWords self ctx doubleQuoted listQuoted words = pure (0, words.map (·, false))
  | [], _ => rfl
  | word :: words, expanded => by
      simp only [areExpanded, Bool.and_eq_true] at expanded
      have plain : isAtSign word = false := by
        cases word with
        | parameter wp => simp [isExpanded] at expanded
        | _ => rfl
      rw [runWords, runWordIn_expanded self ctx doubleQuoted word expanded.1,
        runWords_expanded self ctx doubleQuoted listQuoted words expanded.2]
      simp [plain]

end

/-- The parameters of the current call frame. -/
structure HasPositional (state : Shell World) (args : List Str) : Prop where
  argc : state.argc = args.length + 1
  arg : ∀ i, (bound : i < args.length) → ∃ number, state.argv[i + 1]? = some (.string number args[i])

omit [System World] in
theorem frameArg_run {state : Shell World} {i number : Nat} {str : Str}
    (slot : state.argv[i]? = some (.string number str)) :
    Leaf.run (frameArg (i : Int)) state = .done str state := by
  have natural : ¬ ((i : Int) < 0) := by omega
  simp [frameArg, slotAt, natural, slot, orCrash]

omit [System World] in
theorem frameArgs_run {state : Shell World} {indices : List Nat} {args : List Str}
    (slots : List.Forall₂ (fun i arg => ∃ number, state.argv[i]? = some (.string number arg)) indices args) :
    Leaf.run (frameArgs indices) state = .done args state := by
  induction slots with
  | nil => rfl
  | cons slot _ ih =>
      obtain ⟨number, slot⟩ := slot
      unfold frameArgs at ih ⊢
      simp [frameArg_run slot, ih]

omit [System World] in
theorem HasPositional.frameArgs {state : Shell World} {args : List Str} (positional : HasPositional state args) :
    Leaf.run (Mrsh.frameArgs (positionalIndices state.argc)) state = .done args state := by
  apply frameArgs_run
  have indices : positionalIndices state.argc = List.range' 1 args.length := by
    have count : state.argc.toNat = args.length + 1 := by rw [positional.argc]; omega
    rw [positionalIndices, count, List.range_eq_range', List.range'_succ, List.drop_one, List.tail_cons]
  rw [indices, List.forall₂_iff_get]
  refine ⟨List.length_range', fun i _ bound => ?_⟩
  simpa [Nat.add_comm] using positional.arg i bound

/-- Where the parts of the word `"pre$@post"` are in the text. -/
structure AtPositions where
  lquote : Position
  pre : Range
  dollar : Position
  name : Range
  post : Range
  rquote : Position

/-- The text before or after `$@`, which is no node where it is empty. -/
def literalWords (text : Str) (range : Range) : List Word :=
  if text.isEmpty then [] else [.string text false false range]

def atParameter (at_ : AtPositions) : Word :=
  .parameter
    { name := ['@'], op := .none, colon := false, arg := none, dollarPos := at_.dollar, nameRange := at_.name
      opRange := .invalid, lbracePos := .invalid, rbracePos := .invalid }

/-- The word `"pre$@post"`. -/
def atWord (at_ : AtPositions) (pre post : Str) : Word :=
  .list (literalWords pre at_.pre ++ atParameter at_ :: literalWords post at_.post) true at_.lquote at_.rquote

def quotedLiteral (text : Str) (range : Range) : List Word :=
  if text.isEmpty then [] else [mrshWordListCreate [.string text false false range] true]

/-- What the word is expanded to. -/
def atExpansion (at_ : AtPositions) (sep pre post : Str) (args : List Str) : Word :=
  mrshWordListCreate
    (quotedLiteral pre at_.pre ++ mrshWordListCreate (positionalWords sep true args) false ::
      quotedLiteral post at_.post) false

def ifsOf (state : Shell World) : Option Str := (state.vars.get "IFS".toList).map (·.value)

omit [System World] in
theorem markWords_positional (sep : Str) (quoteArgs : Bool) (args : List Str) :
    markWordsSplitFields (positionalWords sep quoteArgs args) = positionalWords sep quoteArgs args := by
  induction args with
  | nil => rfl
  | cons arg args ih =>
      cases args with
      | nil => rfl
      | cons next args =>
          unfold positionalWords
          split <;> simp [markWordsSplitFields, markWordSplitFields, splitString, ih]

omit [System World] in
theorem areExpanded_positional (sep : Str) (quoteArgs : Bool) (args : List Str) :
    areExpanded (positionalWords sep quoteArgs args) = true := by
  induction args with
  | nil => rfl
  | cons arg args ih =>
      cases args with
      | nil => rfl
      | cons next args =>
          unfold positionalWords
          split <;> simp [areExpanded, isExpanded, splitString, ih]

omit [System World] in
theorem expandPositionalParams_run {state : Shell World} {args : List Str}
    (positional : HasPositional state args) (quoteArgs : Bool) :
    Leaf.run (expandPositionalParams quoteArgs) state =
      .done (mrshWordListCreate (positionalWords (positionalSep (ifsOf state)) quoteArgs args) false) state := by
  simp only [expandPositionalParams, envValue, Leaf.run_bind, Leaf.run_gets, Outcome.andThen_done,
    positional.frameArgs, Leaf.run_pure, ifsOf]

/-- The parameter is expanded to a list of strings, which is expanded once more. -/
theorem runWordParameter_at (fuel : Nat) (ctx : Context) (at_ : AtPositions) {state : Shell World}
    {args : List Str} (positional : HasPositional state args) :
    Exec.run (runWordIn (tasks (fuel + 1)) ctx true (atParameter at_)) state =
      .done (0, mrshWordListCreate (positionalWords (positionalSep (ifsOf state)) true args) false) state := by
  let wp : WordParameter :=
    { name := ['@'], op := .none, colon := false, arg := none, dollarPos := at_.dollar, nameRange := at_.name
      opRange := .invalid, lbracePos := .invalid, rbracePos := .invalid }
  let words := positionalWords (positionalSep (ifsOf state)) true args
  let self : Tasks World := tasks (fuel + 1)
  have marked : markWordSplitFields (mrshWordListCreate words false) = mrshWordListCreate words false :=
    congrArg (Word.list · false _ _) (markWords_positional _ _ _)
  have applied : Exec.run (applyParameterOp self ctx wp none true) state =
      .done (.ok (some (mrshWordListCreate words false))) state := by
    change Exec.run (leaf (some <$> expandPositionalParams true) >>= _) state = _
    rw [Exec.run_bind, Exec.run_leaf, Leaf.run_map, expandPositionalParams_run positional]
    rfl
  have again : self.runWord ctx (mrshWordListCreate words false) =
      pure (0, mrshWordListCreate words false) :=
    runWordIn_expanded (tasks fuel) ctx false (mrshWordListCreate words false) (areExpanded_positional _ _ _)
  change Exec.run (runWordParameter self ctx true wp) state = _
  unfold runWordParameter
  rw [Exec.run_bind, Exec.run_leaf]
  change Exec.run (applyParameterOp self ctx wp none true >>= _) state = _
  rw [Exec.run_bind, applied]
  change Exec.run (leaf (pure (some (markWordSplitFields (mrshWordListCreate words false)))) >>= _) state = _
  rw [marked, Exec.run_bind, Exec.run_leaf, Leaf.run_pure]
  change Exec.run (self.runWord ctx (mrshWordListCreate words false) >>= _) state = _
  rw [again]
  rfl

/-- The children of the word, of which only the parameter is flagged. -/
theorem runWords_at (fuel : Nat) (ctx : Context) (at_ : AtPositions) (pre post : Str) {state : Shell World}
    {args : List Str} (positional : HasPositional state args) :
    Exec.run (runWords (tasks (fuel + 1)) ctx true true
        (literalWords pre at_.pre ++ atParameter at_ :: literalWords post at_.post)) state =
      .done (0, (literalWords pre at_.pre).map (·, false) ++
        (mrshWordListCreate (positionalWords (positionalSep (ifsOf state)) true args) false, true) ::
          (literalWords post at_.post).map (·, false)) state := by
  have postExpanded : areExpanded (literalWords post at_.post) = true := by
    unfold literalWords
    split <;> rfl
  have rest : Exec.run (runWords (tasks (fuel + 1)) ctx true true
      (atParameter at_ :: literalWords post at_.post)) state =
      .done (0, (mrshWordListCreate (positionalWords (positionalSep (ifsOf state)) true args) false, true) ::
        (literalWords post at_.post).map (·, false)) state := by
    rw [runWords, Exec.run_bind, runWordParameter_at fuel ctx at_ positional, Outcome.andThen_done,
      runWords_expanded _ _ _ _ _ postExpanded]
    rfl
  unfold literalWords
  split
  · exact rest
  · change Exec.run (runWords (tasks (fuel + 1)) ctx true true
      (atParameter at_ :: literalWords post at_.post) >>= _) state = _
    rw [Exec.run_bind, rest]
    rfl

theorem finishList_at (at_ : AtPositions) (pre post : Str) (word : Word) :
    finishList ((literalWords pre at_.pre).map (·, false) ++
        (word, true) :: (literalWords post at_.post).map (·, false)) true at_.lquote at_.rquote =
      mrshWordListCreate (quotedLiteral pre at_.pre ++ word :: quotedLiteral post at_.post) false := by
  unfold literalWords quotedLiteral finishList
  split <;> split <;> simp [unquoteAtSigns, unquoteAtSigns.closeQuoted]

theorem runWord_at (fuel : Nat) (ctx : Context) (at_ : AtPositions) (pre post : Str) {state : Shell World}
    {args : List Str} (positional : HasPositional state args) :
    Exec.run (runWord (tasks (fuel + 1)) ctx (atWord at_ pre post)) state =
      .done (0, atExpansion at_ (positionalSep (ifsOf state)) pre post args) state := by
  rw [runWord, atWord, runWordIn, Bool.false_or, Exec.run_bind, runWords_at fuel ctx at_ pre post positional]
  exact congrArg (fun word => Outcome.done (0, word) state) (finishList_at at_ pre post _)

end

/-! ## Splitting the expansion -/

theorem isExpanded_atExpansion (at_ : AtPositions) (sep pre post : Str) (args : List Str) :
    isExpanded (atExpansion at_ sep pre post args) = true := by
  have literal : ∀ text range, areExpanded (quotedLiteral text range) = true := by
    intro text range
    unfold quotedLiteral
    split <;> rfl
  simp only [atExpansion, mrshWordListCreate, isExpanded, areExpanded_append, areExpanded, literal,
    areExpanded_positional, Bool.and_self]

/-- The characters of a parameter are quoted. -/
def quotedChars (str : Str) : QuotedText := str.map (·, true)

/-- The text before and after the parameters is a double-quoted piece, if there is any. -/
def literalPieces (text : Str) : List Piece := if text.isEmpty then [] else [.doubleQuoted (quotedChars text)]

/-- A separator ends the field of the parameter before it, of whichever kind it is. -/
theorem step_separator {ifs : Str} {c : Char} (delimiter : c ∈ ifs) (fields : List QuotedText)
    (cur : QuotedText) :
    Splitter.step ⟨fields, some cur, false, false⟩ (charPiece ifs c) = ⟨fields ++ [cur], none, true, false⟩ := by
  unfold charPiece
  rw [if_neg (not_not_intro delimiter)]
  split <;> rfl

theorem foldl_positional {ifs : Str} {c : Char} (delimiter : c ∈ ifs) (arg : Str) (args : List Str)
    (machine : Splitter) :
    ∃ fields cur, (piecesOfChildren ifs (positionalWords [c] true (arg :: args))).foldl Splitter.step machine =
        ⟨fields, some cur, false, false⟩ ∧
      ∀ post, fields ++ [cur ++ post] =
        machine.fields ++ embedFields (machine.cur.getD []) post ((arg :: args).map quotedChars) := by
  induction args generalizing arg machine with
  | nil =>
      refine ⟨machine.fields, machine.cur.getD [] ++ quotedChars arg, ?_, fun post => rfl⟩
      rfl
  | cons next args ih =>
      obtain ⟨fields, cur, folded, embedded⟩ :=
        ih next ⟨machine.fields ++ [machine.cur.getD [] ++ quotedChars arg], none, true, false⟩
      refine ⟨fields, cur, ?_, fun post => ?_⟩
      · rw [← folded, ← step_separator delimiter]
        rfl
      · simp [embedded post, embedFields_cons_cons]

theorem piecesOfChildren_append (ifs : Str) (first second : List Word) :
    piecesOfChildren ifs (first ++ second) = piecesOfChildren ifs first ++ piecesOfChildren ifs second := by
  induction first with
  | nil => rfl
  | cons child children ih => simp only [List.cons_append, piecesOfChildren, ih, List.append_assoc]

theorem pieces_atExpansion (ifs : Str) (at_ : AtPositions) (sep pre post : Str) (args : List Str) :
    pieces ifs (atExpansion at_ sep pre post args) =
      literalPieces pre ++ (piecesOfChildren ifs (positionalWords sep true args) ++ literalPieces post) := by
  have literal : ∀ text range, piecesOfChildren ifs (quotedLiteral text range) = literalPieces text := by
    intro text range
    unfold quotedLiteral literalPieces
    split
    · rfl
    · simp [piecesOfChildren, pieces, mrshWordListCreate, quotedTextOfChildren, quotedText, quotedChars]
  simp only [atExpansion, mrshWordListCreate, pieces, piecesOfChildren_append, piecesOfChildren, literal]

/-- The fields of `"pre$@post"` when there are separators between the parameters. Without
parameters, the text around is a field of its own. -/
def atFields (pre post : Str) (args : List Str) : List Str :=
  if args.isEmpty then if (pre ++ post).isEmpty then [] else [pre ++ post] else embedFields pre post args

theorem map_fst_quotedChars (str : Str) : (quotedChars str).map Prod.fst = str := by
  simp [quotedChars, Function.comp_def]

theorem finish_atExpansion {ifs : Str} {c : Char} (delimiter : c ∈ ifs) (at_ : AtPositions) (pre post : Str)
    (args : List Str) :
    ((pieces ifs (atExpansion at_ [c] pre post args)).foldl Splitter.step Splitter.init).finish.map
      (List.map Prod.fst) = atFields pre post args := by
  rw [pieces_atExpansion, List.foldl_append, List.foldl_append]
  cases args with
  | nil =>
      unfold literalPieces
      split <;> split <;>
        simp_all [atFields, positionalWords, piecesOfChildren, Splitter.init, Splitter.step, Splitter.append,
          Splitter.finish, map_fst_quotedChars]
  | cons arg args =>
      obtain ⟨fields, cur, folded, embedded⟩ := foldl_positional delimiter arg args
        ((literalPieces pre).foldl Splitter.step Splitter.init)
      rw [folded]
      have start : ((literalPieces pre).foldl Splitter.step Splitter.init).fields = [] ∧
          ((literalPieces pre).foldl Splitter.step Splitter.init).cur.getD [] = quotedChars pre := by
        unfold literalPieces
        split
        · simp_all [Splitter.init, quotedChars]
        · exact ⟨rfl, rfl⟩
      have ended : ((literalPieces post).foldl Splitter.step ⟨fields, some cur, false, false⟩).finish =
          fields ++ [cur ++ quotedChars post] := by
        unfold literalPieces
        split
        · simp_all [Splitter.finish, quotedChars]
        · rfl
      rw [ended, embedded, start.1, start.2, List.nil_append, map_embedFields]
      simp [map_fst_quotedChars, atFields, Function.comp_def]

theorem splitFields_atExpansion {ifs : Option Str} (nonempty : ifs ≠ some []) (at_ : AtPositions)
    (pre post : Str) (args : List Str) :
    ∃ fields, splitFields (atExpansion at_ (positionalSep ifs) pre post args) ifs = some fields ∧
      getFieldsStr fields = some (atFields pre post args) := by
  obtain ⟨c, sep, delimiter⟩ : ∃ c, positionalSep ifs = [c] ∧ c ∈ ifs.getD defaultIfs := by
    cases ifs with
    | none => exact ⟨' ', rfl, by decide⟩
    | some ifs =>
        cases ifs with
        | nil => exact absurd rfl nonempty
        | cons c ifs => exact ⟨c, rfl, List.mem_cons_self⟩
  obtain ⟨fields, split, expanded, texts⟩ :=
    splitFields_machine (isExpanded_atExpansion at_ (positionalSep ifs) pre post args) nonempty
  refine ⟨fields, split, ?_⟩
  rw [getFieldsStr_expanded fields expanded, ← finish_atExpansion delimiter at_ pre post args, ← sep, ← texts,
    List.map_map]
  rfl

theorem text_positional_nil (args : List Str) :
    (quotedTextOfChildren false (positionalWords [] true args)).map Prod.fst = args.flatten := by
  induction args with
  | nil => rfl
  | cons arg args ih =>
      cases args with
      | nil => simp [positionalWords, quotedTextOfChildren, quotedText, Function.comp_def]
      | cons next args =>
          simpa [positionalWords, quotedTextOfChildren, quotedText, Function.comp_def] using ih

theorem splitFields_atExpansion_empty (at_ : AtPositions) (pre post : Str) (args : List Str) :
    ∃ fields, splitFields (atExpansion at_ (positionalSep (some [])) pre post args) (some []) = some fields ∧
      getFieldsStr fields = some [pre ++ args.flatten ++ post] := by
  have expanded := isExpanded_atExpansion at_ (positionalSep (some [])) pre post args
  obtain ⟨copy, copied, copyExpanded, same⟩ := mrshWordCopy_expanded 0 _ expanded
  refine ⟨[copy], by simp [splitFields, copied], ?_⟩
  have literal : ∀ text range, (quotedTextOfChildren false (quotedLiteral text range)).map Prod.fst = text := by
    intro text range
    unfold quotedLiteral
    split <;> simp_all [quotedTextOfChildren, quotedText, mrshWordListCreate, Function.comp_def]
  have texts := text_positional_nil args
  rw [getFieldsStr_expanded [copy] (by simp [areExpanded, copyExpanded]), List.map_singleton, same]
  simp only [atExpansion, mrshWordListCreate, quotedText, Bool.or_self, quotedTextOfChildren_append,
    quotedTextOfChildren, List.map_append, literal]
  simp [positionalSep, texts]

/-- The length tells the fields apart, and one parameter needs no separator. -/
theorem joined_eq_embedFields_iff (pre post : Str) (arg : Str) (args : List Str) :
    [pre ++ (arg :: args).flatten ++ post] = embedFields pre post (arg :: args) ↔ args = [] := by
  constructor
  · intro same
    have lengths := congrArg List.length same
    rw [length_embedFields] at lengths
    simpa using lengths.symm
  · rintro rfl
    simp [embedFields]

section

variable {World : Type} [System World]

theorem atWord_fields (fuel : Nat) (ctx : Context) (at_ : AtPositions) (pre post : Str) {state : Shell World}
    {args : List Str} (positional : HasPositional state args) :
    ∃ word fields, Exec.run (runWord (tasks (fuel + 1)) ctx (atWord at_ pre post)) state = .done (0, word) state ∧
      splitFields word (ifsOf state) = some fields ∧
      getFieldsStr fields = some
        (if ifsOf state = some [] then [pre ++ args.flatten ++ post] else atFields pre post args) := by
  by_cases empty : ifsOf state = some []
  · obtain ⟨fields, split, texts⟩ := splitFields_atExpansion_empty at_ pre post args
    rw [← empty] at split
    exact ⟨_, fields, runWord_at fuel ctx at_ pre post positional, split, by rw [texts, if_pos empty]⟩
  · obtain ⟨fields, split, texts⟩ := splitFields_atExpansion empty at_ pre post args
    exact ⟨_, fields, runWord_at fuel ctx at_ pre post positional, split, by rw [texts, if_neg empty]⟩

/-- `"$@"` is split into the parameters exactly when IFS is not empty or there is one parameter, and so
is `"pre$@post"` where there is a first parameter. Without parameters, `pre` and `post` are one field. -/
theorem atWord_fields_iff (fuel : Nat) (ctx : Context) (at_ : AtPositions) {state : Shell World}
    {args : List Str} (positional : HasPositional state args) :
    (∃ word fields, Exec.run (runWord (tasks (fuel + 1)) ctx (atWord at_ [] [])) state = .done (0, word) state ∧
      splitFields word (ifsOf state) = some fields ∧
      (getFieldsStr fields = some args ↔ ifsOf state ≠ some [] ∨ args.length = 1)) ∧
    ∀ pre post, ∃ word fields,
      Exec.run (runWord (tasks (fuel + 1)) ctx (atWord at_ pre post)) state = .done (0, word) state ∧
      splitFields word (ifsOf state) = some fields ∧
      (args ≠ [] → (getFieldsStr fields = some (embedFields pre post args) ↔
        ifsOf state ≠ some [] ∨ args.length = 1)) ∧
      (args = [] → pre ++ post ≠ [] → getFieldsStr fields = some [pre ++ post]) := by
  have embedded : ∀ pre post, args ≠ [] →
      ((if ifsOf state = some [] then [pre ++ args.flatten ++ post] else atFields pre post args) =
          embedFields pre post args ↔ ifsOf state ≠ some [] ∨ args.length = 1) := by
    intro pre post some_
    obtain ⟨arg, rest, rfl⟩ := List.exists_cons_of_ne_nil some_
    by_cases empty : ifsOf state = some []
    · rw [if_pos empty, joined_eq_embedFields_iff]
      simp [empty]
    · simp [empty, atFields]
  constructor
  · obtain ⟨word, fields, run, split, texts⟩ := atWord_fields fuel ctx at_ [] [] positional
    refine ⟨word, fields, run, split, ?_⟩
    rw [texts, Option.some.injEq]
    by_cases none_ : args = []
    · subst none_
      by_cases empty : ifsOf state = some [] <;> simp [empty, atFields]
    · have iff_ := embedded [] [] none_
      rwa [embedFields_nil] at iff_
  · intro pre post
    obtain ⟨word, fields, run, split, texts⟩ := atWord_fields fuel ctx at_ pre post positional
    refine ⟨word, fields, run, split, fun some_ => ?_, ?_⟩
    · rw [texts, Option.some.injEq]
      exact embedded pre post some_
    · rintro rfl around
      rw [texts]
      by_cases empty : ifsOf state = some []
      · simp [empty]
      · have notEmpty : (pre ++ post).isEmpty = false := by simpa using around
        simp only [if_neg empty, atFields, List.isEmpty_nil, if_true, notEmpty]
        rfl

end

/-- A shell with two parameters. -/
def twoParameters (ifs : Option Str) : Shell Machine :=
  { mrshStateCreate [] Machine.isolated with
    argv := stringsArgv ["sh".toList, ['a', ' '], []]
    argc := 3
    vars := match ifs with
      | some ifs => Hashtable.empty.set "IFS".toList ⟨ifs, .none⟩
      | none => .empty }

theorem twoParameters_positional (ifs : Option Str) : HasPositional (twoParameters ifs) [['a', ' '], []] where
  argc := rfl
  arg
    | 0, _ => ⟨1, rfl⟩
    | 1, _ => ⟨2, rfl⟩

def nowhere : AtPositions := ⟨.invalid, .invalid, .invalid, .invalid, .invalid, .invalid⟩

/-- `"$@"` with the default IFS, a parameter that ends with a blank and an empty one. -/
theorem atWord_fields_two : ∃ word fields,
    Exec.run (runWord (tasks 1) .initial (atWord nowhere [] [])) (twoParameters none) =
      .done (0, word) (twoParameters none) ∧
    splitFields word none = some fields ∧ getFieldsStr fields = some [['a', ' '], []] := by
  obtain ⟨word, fields, run, split, exactly⟩ :=
    (atWord_fields_iff 0 .initial nowhere (twoParameters_positional none)).1
  have default : ifsOf (twoParameters none) ≠ some [] := by decide
  exact ⟨word, fields, run, split, exactly.mpr (.inl default)⟩

/-- With an empty IFS, two parameters become one field. -/
theorem atWord_joins_parameters : ∃ word fields,
    Exec.run (runWord (tasks 1) .initial (atWord nowhere [] [])) (twoParameters (some [])) =
      .done (0, word) (twoParameters (some [])) ∧
    splitFields word (some []) = some fields ∧ getFieldsStr fields = some [['a', ' ']] := by
  obtain ⟨word, fields, run, split, texts⟩ :=
    atWord_fields 0 .initial nowhere [] [] (twoParameters_positional (some []))
  exact ⟨word, fields, run, split, texts⟩

end Mrsh
