import Mathlib.Data.List.DropRight
import Mrsh.Parser.Traversal

namespace Mrsh

open Mrsh.Data

/-! # Positions

A parser without aliases takes what it reads from the front of its text, and its position
moves over exactly that. What it records lies between the positions before and after.
-/

/-- The position after a text: the column counts the characters of its last line. -/
def Position.behind (pos : Position) (text : Str) : Position where
  offset := pos.offset + text.length
  line := pos.line + text.count '\n'
  column := if '\n' ∈ text then (text.rtakeWhile (· != '\n')).length + 1 else pos.column + text.length

namespace Position

variable (pos : Position)

theorem behind_nil : pos.behind [] = pos := rfl

theorem behind_concat (text : Str) (c : Char) : pos.behind (text ++ [c]) = (pos.behind text).advance c := by
  unfold behind advance
  by_cases newline : c = '\n'
  · simp [newline, ← Nat.add_assoc, List.rtakeWhile_concat_neg]
  · have visible : '\n' ≠ c := Ne.symm newline
    have column : (if '\n' ∈ text then ((text ++ [c]).rtakeWhile (· != '\n')).length + 1
        else pos.column + (text.length + 1)) =
        (if '\n' ∈ text then (text.rtakeWhile (· != '\n')).length + 1 else pos.column + text.length) + 1 := by
      rw [List.rtakeWhile_concat_pos _ _ _ (by simpa using newline)]
      split <;> simp [Nat.add_assoc]
    simpa [newline, visible, Nat.add_assoc] using column

theorem behind_append (first second : Str) : pos.behind (first ++ second) = (pos.behind first).behind second := by
  induction second using List.reverseRecOn with
  | nil => rw [List.append_nil, behind_nil]
  | append_singleton second c ih => rw [← List.append_assoc, behind_concat, ih, behind_concat]

end Position

/-! ## What is read -/

/-- Without aliases, a text is taken from the front and the position moves behind it. -/
def ReadsOver (before after : Parser) : Prop :=
  before.aliasFunc = none → after.aliasFunc = none ∧
    ∃ taken, before.buf = taken ++ after.buf ∧ after.pos = before.pos.behind taken

theorem ReadsOver.of_same {before after : Parser} (sameBuf : after.buf = before.buf) (samePos : after.pos = before.pos)
    (sameAlias : after.aliasFunc = before.aliasFunc) : ReadsOver before after :=
  fun noAliases => ⟨sameAlias.trans noAliases, [], sameBuf.symm, samePos⟩

theorem ReadsOver.trans {before between after : Parser} (first : ReadsOver before between)
    (second : ReadsOver between after) : ReadsOver before after := by
  intro noAliases
  obtain ⟨stillNone, taken, text, moved⟩ := first noAliases
  obtain ⟨noneAfter, more, rest, movedOn⟩ := second stillNone
  refine ⟨noneAfter, taken ++ more, ?_, ?_⟩
  · rw [text, rest, List.append_assoc]
  · rw [movedOn, moved, Position.behind_append]

theorem readsOver : AllowsParsing ReadsOver where
  refl := ⟨fun _ => .of_same rfl rfl rfl⟩
  trans := ⟨fun _ _ _ => .trans⟩
  readChar parser c _ starts noAliases := ⟨noAliases, [c], starts, (parser.pos.behind_concat [] c).symm⟩
  symbol _ _ _ := .of_same rfl rfl rfl
  continuation _ := .of_same rfl rfl rfl
  error _ _ _ := .of_same rfl rfl rfl
  notes _ _ sameBuf samePos sameAlias _ := .of_same sameBuf samePos sameAlias

theorem noAliases_readsOver : AllowsNoAliases ReadsOver where
  gets nextKeeps parser value after ended noAliases := by
    rw [Run.gets_bind, noAliases] at ended
    exact nextKeeps ended noAliases
  set := .modify fun parser noAliases => @ReadsOver.of_same parser _ rfl rfl noAliases.symm noAliases

/-! ## Other texts -/

section

variable {α : Type} {relation : Parser → Parser → Prop} {self : Productions} (allows : AllowsParsing relation)
  (stores : ∀ before after : Parser, after.buf = before.buf → after.pos = before.pos →
    after.aliasFunc = before.aliasFunc → relation before after)

include stores

theorem withSubparser_stores (text : Str) (parse : Parse α) : Run.Keeps relation (withSubparser text parse) := by
  intro parser value after ended
  unfold withSubparser at ended
  split at ended
  · cases ended
    exact stores _ _ rfl rfl rfl
  · cases ended

include allows

theorem backQuotes_stores : Run.Keeps relation (backQuotes self) := by
  refine allows.bind (allows.gets _) fun begin => allows.bind (parserReadChar_respects allows.reading).keeps fun c => ?_
  refine allows.bind (assert_respects allows.reading _).keeps fun _ => allows.bind (allows.gets _) fun fuel => ?_
  refine allows.bindOption (backQuotesText_respects allows.reading _ _).keeps (allows.pure _) fun text => ?_
  refine allows.bind (withSubparser_stores stores text _) fun parsed => ?_
  obtain ⟨prog, error⟩ := parsed
  cases error with
  | some errMsg => exact failed_keeps allows _
  | none => exact allows.bind (allows.gets _) fun _ => allows.pure _

theorem hereDocumentLines_stores (redir : IoRedirect) (expandLines : Bool) (delim : Str) (fuel : Nat) :
    Run.Keeps relation (hereDocumentLines self redir expandLines delim fuel) := by
  induction fuel with
  | zero => exact allows.stop _
  | succ fuel ih =>
      have stored : ∀ line, Run.Keeps relation (addHereDocumentLine redir line) := fun line =>
        .modify fun parser => stores _ _ rfl rfl rfl
      refine allows.bind (allows.gets _) fun lineFuel => ?_
      refine allows.bind (readLine_respects allows.reading _ _).keeps fun buf =>
        allows.bind (allows.gets _) fun next => ?_
      refine .ite (fun _ => .ite (fun _ => ?_) fun _ => allows.pure _) fun _ => .ite (fun _ => ?_) fun _ => ?_
      · exact allows.bind (parserReadChar_respects allows.reading).keeps fun _ => allows.pure _
      · exact allows.bind (parserSetError_respects allows.reading _).keeps fun _ => allows.pure _
      refine allows.bind (readContinuationLine_respects allows.reading).keeps fun _ => .ite (fun _ => ?_) fun _ => ?_
      · refine allows.bind (withSubparser_stores stores _ _) fun parsed => ?_
        exact allows.bind (stored _) fun _ => ih
      · exact allows.bind (stored _) fun _ => ih

end

theorem productions_readOver (fuel : Nat) :
    Calls ReadsOver (productions fuel) ∧ Run.Keeps ReadsOver (productions fuel).mrshParseProgram := by
  have stores : ∀ before after : Parser, after.buf = before.buf → after.pos = before.pos →
      after.aliasFunc = before.aliasFunc → ReadsOver before after := fun _ _ => .of_same
  exact productions_calls readsOver noAliases_readsOver (fun _ _ => backQuotes_stores readsOver stores)
    (fun _ => hereDocumentLines_stores readsOver stores) fuel

section

variable {relation : Parser → Parser → Prop} (allows : AllowsParsing relation)
include allows

theorem parseLineError_keeps : Run.Keeps relation parseLineError :=
  allows.bind (allows.gets _) fun _ => allows.bind (skipLine_respects allows.reading _).keeps fun _ =>
    allows.bind (consumeSymbol_respects allows.reading).keeps fun _ => allows.pure _

theorem parseLine_keeps {self : Productions} (calls : Calls relation self) : Run.Keeps relation (parseLine self) := by
  have failed (msg : Str) : Run.Keeps relation (parserSetError msg >>= fun _ => parseLineError) :=
    allows.bind (parserSetError_respects allows.reading msg).keeps fun _ => parseLineError_keeps allows
  refine allows.bind (allows.modify fun _ => ⟨rfl, rfl, rfl, rfl⟩) fun _ => ?_
  refine allows.bind (symbol_respects allows.reading _).keeps fun atEnd => .ite (fun _ => allows.pure _) fun _ => ?_
  refine allows.bind (newline_respects allows.reading).keeps fun blank => .ite (fun _ => allows.pure _) fun _ => ?_
  refine allows.bindOption (expectCompleteCommand_keeps allows calls) (parseLineError_keeps allows) fun body => ?_
  refine allows.bind (symbol_respects allows.reading _).keeps fun ended => .ite (fun _ => ?_) fun _ => ?_
  · exact allows.bind (allows.pure _) fun ended => .ite (fun _ => allows.pure _) fun _ => failed _
  · exact allows.bind (newline_respects allows.reading).keeps fun ended => .ite (fun _ => allows.pure _) fun _ =>
      failed _

end

variable (entry : EntryPoint) (fuel : Nat) {parser after : Parser}

/-- The position of a parser says how much of its text was read, in characters and in lines and columns. -/
theorem EntryPoint.position {value : Option Program} (noAliases : parser.aliasFunc = none)
    (ended : entry.parse fuel parser = .done value after) :
    ∃ taken, parser.buf = taken ++ after.buf ∧ after.pos = parser.pos.behind taken := by
  have calls := (productions_readOver fuel).1
  cases entry with
  | program =>
      obtain ⟨_, read, -⟩ := withHereDocuments_done ended
      exact (parseProgram_keeps readsOver calls read noAliases).2
  | line =>
      obtain ⟨_, read, -⟩ := withHereDocuments_done ended
      exact (parseLine_keeps readsOver calls read noAliases).2

/-- The line `ls`, and the text after it. -/
def linesOfText : Parser := mrshParserWithData "ls\npwd".toList

theorem linesOfText_parsed : ∃ program after, EntryPoint.line.parse 8 linesOfText = .done (some program) after := by
  have parsed : (EntryPoint.line.parse 8 linesOfText).value?.join.isSome = true := by decide +kernel
  obtain ⟨program, found⟩ := Option.isSome_iff_exists.mp parsed
  exact ⟨program, _, Outcome.eq_done_some_of_value? found⟩

theorem EntryPoint.position_line : ∃ value after taken, EntryPoint.line.parse 8 linesOfText = .done value after ∧
    linesOfText.buf = taken ++ after.buf ∧ after.pos = linesOfText.pos.behind taken := by
  obtain ⟨program, after, ended⟩ := linesOfText_parsed
  obtain ⟨taken, moved⟩ := EntryPoint.position .line 8 rfl ended
  exact ⟨_, after, taken, ended, moved⟩

/-- What a parser records of the text that it reads lies in that text. -/
theorem EntryPoint.ranges_within {program : Program} (ended : entry.parse fuel parser = .done (some program) after) :
    ∀ node ∈ listsRanges program.body, node.apart = false →
      parser.pos.offset ≤ node.range.begin.offset ∧ node.range.finish.offset ≤ after.pos.offset := by
  have within : ∀ parse : Parse (Option Program), (∀ stretch, Yields stretch True (GoodProgram stretch) parse) →
      withHereDocuments parse parser = .done (some program) after →
      ∀ node ∈ listsRanges program.body, node.apart = false →
        parser.pos.offset ≤ node.range.begin.offset ∧ node.range.finish.offset ≤ after.pos.offset := by
    intro parse yields ended
    obtain ⟨unfilled, read, filled⟩ := withHereDocuments_done ended
    obtain ⟨prog, found, rfl⟩ := Option.map_eq_some_iff.mp filled.symm
    obtain ⟨-, -, isGood⟩ := Builds.reaches yields (hereDocumentOf after) (.start parser) read
    exact (isGood prog found).within
  cases entry with
  | program => exact within _ (fun _ => parseProgram_yields (productions_build fuel)) ended
  | line => exact within _ (fun _ => parseLine_yields (productions_build fuel)) ended

theorem EntryPoint.ranges_within_line :
    ∃ program after, EntryPoint.line.parse 8 linesOfText = .done (some program) after ∧
    ∀ node ∈ listsRanges program.body, node.apart = false →
      0 ≤ node.range.begin.offset ∧ node.range.finish.offset ≤ after.pos.offset := by
  obtain ⟨program, after, ended⟩ := linesOfText_parsed
  exact ⟨program, after, ended, EntryPoint.ranges_within .line 8 ended⟩

end Mrsh
