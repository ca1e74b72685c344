import Mathlib.Data.List.TakeWhile
import Mrsh.Parser.ReservedWords

namespace Mrsh

open Mrsh.Data

/-! # Lines that are parsed after a reset

A parser is reset for every line that is typed, and the buffer that it shares with its
caller is filled again. The reset forgets the text that was left and the symbol, and sets
the position to one that no parser starts at.
-/

/-- `mrsh_parser_reset`. -/
def mrshParserReset (parser : Parser) : Parser := { parser with buf := [], hasSym := false, pos := .invalid }

/-- The parser, for the text that its buffer has been filled with. -/
def Parser.refilled (parser : Parser) (text : Str) : Parser := { parser with buf := parser.buf ++ text }

/-- A parser that has been created for the text. The addresses of its nodes differ from those
of the nodes that exist already. -/
def freshParser (parser : Parser) (text : Str) : Parser :=
  { mrshParserWithData text with nextAddress := parser.nextAddress, bodies := parser.bodies }

/-- What `mrsh_parse_line` returns, with what `mrsh_parser_error` reports after it. -/
def parsedLine (fuel : Nat) (parser : Parser) : Option (Option Program × Option (Str × Position)) :=
  match mrshParseLine fuel parser with
  | .done prog after => some (prog, after.error)
  | .stopped _ _ => none

/-- Nothing of earlier parses shows in the result for the text. -/
def ResetShowsNothing (fuel : Nat) (parser : Parser) (text : Str) : Prop :=
  ∃ result, parsedLine fuel ((mrshParserReset parser).refilled text) = some result ∧
    parsedLine fuel (freshParser parser text) = some result

/-- Nothing but blanks and a comment comes before the end of the first line. -/
def blankLine : Str → Bool
  | [] => true
  | c :: rest => c == '\x00' || c == '\n' || c == '#' || isBlank c && blankLine rest

variable {text w tail : Str} {parser found after : Parser}

/-! ## Lines without a command -/

theorem skipComment_uniform (text : Str) :
    ∃ rest, rest.length ≤ text.length ∧ (charAt rest 0 = '\n' ∨ charAt rest 0 = '\x00') ∧
      ∀ (parser : Parser) fuel, parser.buf = text → text.length < fuel →
        ∃ pos continuationLine, skipComment fuel parser = .done () (parser.moved rest pos continuationLine) := by
  let inLine : Char → Bool := fun c => c != '\n' && c != '\x00'
  have split : text.takeWhile inLine ++ text.dropWhile inLine = text := List.takeWhile_append_dropWhile
  have line : LineText (text.takeWhile inLine) := by
    intro c member
    simpa [inLine] using List.mem_takeWhile_imp member
  have ends : charAt (text.dropWhile inLine) 0 = '\n' ∨ charAt (text.dropWhile inLine) 0 = '\x00' := by
    cases rest : text.dropWhile inLine with
    | nil => exact .inr rfl
    | cons c rest' =>
        have stopped := List.head?_dropWhile_not inLine text
        rw [rest] at stopped
        simp only [List.head?_cons, inLine, Bool.and_eq_false_iff, bne_eq_false_iff_eq] at stopped
        exact stopped
  have lengths : (text.takeWhile inLine).length + (text.dropWhile inLine).length = text.length := by
    rw [← List.length_append, split]
  refine ⟨text.dropWhile inLine, by omega, ends, fun parser fuel buf enough => ?_⟩
  exact skipComment_line (text.takeWhile inLine) line ends fuel (by omega) (by rw [buf, split])

theorem nextSymbolWithin_blankLine (text : Str) (blank : blankLine text = true) :
    ∃ rest sym, (sym = .eofToken ∨ sym = .newline ∧ ∃ more, rest = '\n' :: more) ∧
      ∀ (parser : Parser) fuel, parser.buf = text → text.length < fuel →
        ∃ pos continuationLine, nextSymbolWithin fuel parser =
          .done () { parser.moved rest pos continuationLine with hasSym := true, sym } := by
  have atOnce : ∀ text sym, symbolAt text = some sym → ∀ (parser : Parser) fuel, parser.buf = text → 0 < fuel →
      ∃ pos continuationLine, nextSymbolWithin fuel parser =
        .done () { parser.moved text pos continuationLine with hasSym := true, sym } := by
    intro text sym starts parser fuel buf more
    obtain ⟨fuel, rfl⟩ : ∃ less, fuel = less + 1 := ⟨fuel - 1, by omega⟩
    refine ⟨parser.pos, parser.continuationLine, ?_⟩
    rw [nextSymbolWithin_of_symbolAt parser fuel (by rw [buf]; exact starts), parser.moved_self buf]
  induction text with
  | nil => exact ⟨[], .eofToken, .inl rfl, fun parser fuel buf enough => atOnce [] _ rfl parser fuel buf (by omega)⟩
  | cons c rest ih =>
      by_cases nul : c = '\x00'
      · subst nul
        exact ⟨_, .eofToken, .inl rfl, fun parser fuel buf enough => atOnce _ _ rfl parser fuel buf (by omega)⟩
      by_cases newline : c = '\n'
      · subst newline
        exact ⟨_, .newline, .inr ⟨rfl, rest, rfl⟩,
          fun parser fuel buf enough => atOnce _ _ rfl parser fuel buf (by omega)⟩
      by_cases comment : c = '#'
      · subst comment
        obtain ⟨left, shorter, ends, skips⟩ := skipComment_uniform ('#' :: rest)
        obtain ⟨sym, starts, kind⟩ : ∃ sym, symbolAt left = some sym ∧
            (sym = .eofToken ∨ sym = .newline ∧ ∃ more, left = '\n' :: more) := by
          rcases ends with newline | nul
          · cases left with
            | nil => cases newline
            | cons d more =>
                obtain rfl : d = '\n' := newline
                exact ⟨.newline, rfl, .inr ⟨rfl, more, rfl⟩⟩
          · exact ⟨.eofToken, by simp [symbolAt, nul], .inl rfl⟩
        refine ⟨left, sym, kind, fun parser fuel buf enough => ?_⟩
        obtain ⟨fuel, rfl⟩ : ∃ less, fuel = less + 1 := ⟨fuel - 1, by omega⟩
        let noted : Parser := { parser with hasSym := true }
        obtain ⟨pos, continuationLine, skipped⟩ :=
          skips noted (parser.buf.length + 1) buf (by rw [buf]; exact Nat.lt_succ_self _)
        obtain ⟨posEnd, continuationEnd, found⟩ :=
          atOnce left sym starts (noted.moved left pos continuationLine) fuel rfl
          (by simp at enough; omega)
        refine ⟨posEnd, continuationEnd, ?_⟩
        rw [nextSymbolWithin_of_none fuel buf (by rw [buf]; rfl), if_neg (by decide), Run.bind_of_done skipped]
        exact found
      · have isBlankChar : isBlank c = true ∧ blankLine rest = true := by
          simpa [blankLine, nul, newline, comment] using blank
        obtain ⟨left, sym, kind, finds⟩ := ih isBlankChar.2
        refine ⟨left, sym, kind, fun parser fuel buf enough => ?_⟩
        obtain ⟨fuel, rfl⟩ : ∃ less, fuel = less + 1 := ⟨fuel - 1, by omega⟩
        let noted : Parser := { parser with hasSym := true }
        have read := @parserReadChar_cons rest noted c buf nul
        obtain ⟨pos, continuationLine, found⟩ := finds (noted.moved rest (noted.pos.advance c) false) fuel rfl
          (by simpa using enough)
        refine ⟨pos, continuationLine, ?_⟩
        rw [nextSymbolWithin_of_none fuel buf (by rw [buf]; exact symbolAt_blank isBlankChar.1), if_pos isBlankChar.1,
          Run.bind_of_done read]
        exact found

/-- The result for a line without a command depends on its text alone. -/
theorem parsedLine_blankLine (fuel : Nat) (blank : blankLine text = true) :
    ∃ result, ∀ parser : Parser, parser.buf = text → parser.hasSym = false → parsedLine fuel parser = some result := by
  obtain ⟨rest, sym, kind, finds⟩ := nextSymbolWithin_blankLine text blank
  have found : ∀ parser : Parser, parser.buf = text → parser.hasSym = false → parser.error = none →
      ∃ found, getSymbol parser = .done sym found ∧ found.buf = rest ∧ found.error = none := by
    intro parser buf idle noError
    obtain ⟨pos, continuationLine, next⟩ :=
      finds parser (parser.buf.length + 1) buf (by rw [buf]; exact Nat.lt_succ_self _)
    refine ⟨{ parser.moved rest pos continuationLine with hasSym := true, sym }, ?_, rfl, noError⟩
    simp [getSymbol, idle, nextSymbol, bufferFuel, next]
  rcases kind with rfl | ⟨rfl, more, rfl⟩
  · refine ⟨(none, none), fun parser buf idle => ?_⟩
    let begun : Parser := { parser with error := none, continuationLine := false }
    obtain ⟨found, got, _, noError⟩ := found begun buf idle rfl
    have atEnd : parseLine (productions fuel) parser = .done none found := by
      unfold parseLine
      change (eof >>= _) begun = _
      rw [eof, Run.bind_of_done (symbol_of_getSymbol got _)]
      rfl
    unfold parsedLine mrshParseLine withHereDocuments
    rw [Run.bind_of_done atEnd, Run.bind_apply, Run.get_apply, Outcome.andThen_done]
    simp [noError]
  · refine ⟨(some ⟨[]⟩, none), fun parser buf idle => ?_⟩
    let begun : Parser := { parser with error := none, continuationLine := false }
    obtain ⟨found, got, foundBuf, noError⟩ := found begun buf idle rfl
    have read := newline_of_symbol (getSymbol_again got) foundBuf
    have ended : parseLine (productions fuel) parser =
        .done (some ⟨[]⟩) { found.moved more (found.pos.advance '\n') false with hasSym := false } := by
      unfold parseLine
      change (eof >>= _) begun = _
      rw [eof, Run.bind_of_done (symbol_of_getSymbol got _), if_neg (by decide), Run.bind_of_done read]
      rfl
    unfold parsedLine mrshParseLine withHereDocuments
    rw [Run.bind_of_done ended, Run.bind_apply, Run.get_apply, Outcome.andThen_done]
    simp [Parser.moved, noError, fillProgram, fillLists]

/-! ## The name that a program starts with -/

def Pipeline.firstName (pl : Pipeline) : Option Word :=
  match pl.commands with
  | .simpleCommand sc :: _ => sc.name
  | _ => none

def AndOrList.firstName : AndOrList → Option Word
  | .pipeline pl => pl.firstName
  | .binop _ (.pipeline pl) _ _ => pl.firstName
  | .binop _ (.binop ..) _ _ => none

def Program.firstName (prog : Program) : Option Word :=
  match prog.body with
  | [] => none
  | l :: _ => l.andOrList.firstName

theorem Pipeline.firstName_fill (lines : Address → List Word) (pl : Pipeline) :
    (fillPipeline lines pl).firstName = pl.firstName.map (fillWord lines) := by
  obtain ⟨commands, bang, bangPos⟩ := pl
  cases commands with
  | nil => rfl
  | cons cmd cmds =>
      cases cmd with
      | simpleCommand sc =>
          obtain ⟨name, arguments, ioRedirects, assignments⟩ := sc
          cases name <;> simp [Pipeline.firstName, fillPipeline, fillCommands, fillCommand, fillSimpleCommand]
      | _ => simp [Pipeline.firstName, fillPipeline, fillCommands, fillCommand]

theorem Program.firstName_fill (lines : Address → List Word) (prog : Program) :
    (fillProgram lines prog).firstName = prog.firstName.map (fillWord lines) := by
  obtain ⟨body⟩ := prog
  cases body with
  | nil => rfl
  | cons l ls =>
      obtain ⟨andOrList, ampersand, separatorPos⟩ := l
      match andOrList with
      | .pipeline pl => simp [Program.firstName, fillProgram, fillLists, fillList, fillAndOrList, AndOrList.firstName,
          Pipeline.firstName_fill]
      | .binop _ (.pipeline pl) _ _ => simp [Program.firstName, fillProgram, fillLists, fillList, fillAndOrList,
          AndOrList.firstName, Pipeline.firstName_fill]
      | .binop _ (.binop ..) _ _ => simp [Program.firstName, fillProgram, fillLists, fillList, fillAndOrList,
          AndOrList.firstName]

section

variable {self : Productions}

theorem cmdSuffix_name {cmd result : SimpleCommand} (ended : cmdSuffix self cmd parser = .done (some result) after) :
    result.name = cmd.name := by
  obtain ⟨redir, between, _, ended⟩ := Run.bind_done.mp ended
  cases redir with
  | some redir =>
      cases ended
      rfl
  | none =>
      obtain ⟨arg, _, _, ended⟩ := Run.bind_done.mp ended
      cases arg with
      | some arg =>
          cases ended
          rfl
      | none => cases ended

theorem cmdSuffixes_name {fuel : Nat} {cmd result : SimpleCommand}
    (ended : repeatPart (cmdSuffix self) fuel cmd parser = .done result after) : result.name = cmd.name := by
  induction fuel generalizing cmd parser with
  | zero => cases ended
  | succ fuel ih =>
      obtain ⟨next, between, read, ended⟩ := Run.bind_done.mp ended
      cases next with
      | none =>
          cases ended
          rfl
      | some next => exact (ih ended).trans (cmdSuffix_name read)

theorem moreCommands_head {fuel : Nat} {cmd : Command} {cmds result : List Command}
    (ended : moreCommands self fuel (cmd :: cmds) parser = .done (some result) after) : result.head? = some cmd := by
  induction fuel generalizing cmds parser with
  | zero => cases ended
  | succ fuel ih =>
      obtain ⟨bar, _, _, ended⟩ := Run.bind_done.mp ended
      cases bar with
      | none =>
          cases ended
          rfl
      | some bar =>
          obtain ⟨_, _, _, ended⟩ := Run.bind_done.mp ended
          obtain ⟨next, _, _, ended⟩ := Run.bind_done.mp ended
          cases next with
          | none =>
              obtain ⟨_, _, _, ended⟩ := Run.bind_done.mp ended
              cases ended
          | some next => exact ih ended

theorem collect_head {α : Type} {parse : Parse (Option α)} {fuel : Nat} {value : α} {values result : List α}
    (ended : collect parse fuel (value :: values) parser = .done result after) : result.head? = some value := by
  induction fuel generalizing values parser with
  | zero => cases ended
  | succ fuel ih =>
      obtain ⟨next, _, _, ended⟩ := Run.bind_done.mp ended
      cases next with
      | none =>
          cases ended
          rfl
      | some next => exact ih ended

theorem completeCommand_head {cmds : List CommandList} {isOk : Bool} {l : CommandList} {between : Parser}
    (first : list self parser = .done (some l) between)
    (ended : completeCommand self parser = .done (cmds, isOk) after) : cmds.head? = some l := by
  unfold completeCommand at ended
  rw [Run.bind_of_done first] at ended
  obtain ⟨lists, _, collected, ended⟩ := Run.bind_done.mp ended
  obtain ⟨redirs, _, _, ended⟩ := Run.bind_done.mp ended
  have head := collect_head collected
  split at ended
  · cases ended
    exact head
  · obtain ⟨readAll, _, _, ended⟩ := Run.bind_done.mp ended
    split at ended
    · obtain ⟨_, _, _, ended⟩ := Run.bind_done.mp ended
      cases ended
      exact head
    · cases ended
      exact head

/-- The name that is read at the given position. -/
def IsNameAt (w : Str) (begin : Position) (name : Option Word) : Prop :=
  ∃ finish, name = some (.string w false false ⟨begin, finish⟩)

theorem command_firstName {cmd : Option Command} (named : CommandNamed self w tail parser) (more : self.fuel ≠ 0)
    (ended : command self parser = .done cmd after) :
    ∃ sc, cmd = some (.simpleCommand sc) ∧ IsNameAt w parser.pos sc.name := by
  obtain ⟨⟨begin, finish⟩, behind, _, rfl, same⟩ := named.command_eq more
  rw [same] at ended
  obtain ⟨sc, _, suffixes, ended⟩ := Run.bind_done.mp ended
  cases ended
  exact ⟨sc, rfl, finish, cmdSuffixes_name suffixes⟩

variable (named : CommandNamed self w tail parser) (more : self.fuel ≠ 0)
    (noBang : token ['!'] parser = .done none parser)
include named more noBang

theorem pipeline_firstName {pl : Pipeline} (ended : pipeline self parser = .done (some pl) after) :
    IsNameAt w parser.pos pl.firstName := by
  unfold pipeline at ended
  rw [Run.bind_of_done noBang] at ended
  obtain ⟨cmd, _, read, ended⟩ := Run.bind_done.mp ended
  obtain ⟨sc, rfl, isName⟩ := command_firstName named more read
  obtain ⟨commands, _, readMore, ended⟩ := Run.bind_done.mp ended
  cases commands with
  | none => cases ended
  | some commands =>
      cases ended
      obtain ⟨cmds, rfl⟩ := List.head?_eq_some_iff.mp (moreCommands_head readMore)
      exact isName

theorem andOr_firstName {andOrList : AndOrList} (ended : andOr self parser = .done (some andOrList) after) :
    IsNameAt w parser.pos andOrList.firstName := by
  obtain ⟨pl, _, read, ended⟩ := Run.bind_done.mp ended
  cases pl with
  | none => cases ended
  | some pl =>
      have isName := pipeline_firstName named more noBang read
      obtain ⟨op, _, _, ended⟩ := Run.bind_done.mp ended
      cases op with
      | none =>
          cases ended
          exact isName
      | some op =>
          obtain ⟨_, _, _, ended⟩ := Run.bind_done.mp ended
          obtain ⟨right, _, _, ended⟩ := Run.bind_done.mp ended
          cases right with
          | none =>
              obtain ⟨_, _, _, ended⟩ := Run.bind_done.mp ended
              cases ended
          | some right =>
              cases ended
              exact isName

end

/-- The lists that were read start with a command that has the name. -/
theorem expectCompleteCommand_firstName {fuel : Nat} {body : List CommandList}
    (named : CommandNamed (productions (fuel + 2)) w tail parser) (noBang : token ['!'] parser = .done none parser)
    (ended : expectCompleteCommand (productions (fuel + 3)) parser = .done (some body) after) :
    IsNameAt w parser.pos (Program.firstName ⟨body⟩) := by
  obtain ⟨⟨cmds, isOk⟩, _, read, ended⟩ := Run.bind_done.mp ended
  cases isOk with
  | false =>
      obtain ⟨_, _, _, ended⟩ := Run.bind_done.mp ended
      cases ended
  | true =>
      cases ended
      cases first : list (productions (fuel + 3)) parser with
      | stopped reason between =>
          unfold completeCommand at read
          rw [Run.bind_apply, first] at read
          cases read
      | done l between =>
          cases l with
          | none =>
              unfold completeCommand at read
              rw [Run.bind_of_done first] at read
              cases read
          | some l =>
              obtain ⟨ls, rfl⟩ := List.head?_eq_some_iff.mp (completeCommand_head first read)
              obtain ⟨andOrList, _, readFirst, first⟩ := Run.bind_done.mp first
              cases andOrList with
              | none => cases first
              | some andOrList =>
                  obtain ⟨_, _, _, first⟩ := Run.bind_done.mp first
                  obtain ⟨_, _, _, first⟩ := Run.bind_done.mp first
                  cases first
                  exact andOr_firstName named (Nat.succ_ne_zero _) noBang readFirst

/-- A line that starts with the name of a command has it, with its position, in its program. -/
theorem mrshParseLine_firstName {fuel : Nat} {prog : Program} (literal : LiteralWord w) (stops : StopsWord tail)
    (opens : OpensCommand w tail) (notBang : w.head? ≠ some '!') (notKeyword : w ∉ keywords)
    (notReserved : w ∉ reservedWords) (buf : parser.buf = w ++ tail) (idle : parser.hasSym = false)
    (notAlias : ∀ aliasFunc, parser.aliasFunc = some aliasFunc → aliasFunc w = none)
    (ended : mrshParseLine (fuel + 3) parser = .done (some prog) after) : IsNameAt w parser.pos prog.firstName := by
  let begun : Parser := { parser with error := none, continuationLine := false }
  have ahead : WordAhead w tail begun := ⟨buf, (by intro pending; cases idle ▸ pending), rfl, notAlias⟩
  obtain ⟨found, symbol, facing, noError, sameAlias, samePos⟩ := ahead.symbol literal
  have foundAlias : ∀ aliasFunc, found.aliasFunc = some aliasFunc → aliasFunc w = none := by
    rw [sameAlias]
    exact notAlias
  have named : CommandNamed (productions (fuel + 2)) w tail found :=
    (commandNamed_iff_opens facing literal stops facing.symbol noError notKeyword notReserved
      (by simpa using foundAlias)
      rfl).mpr opens
  have noBang : token ['!'] found = .done none found := facing.token_head_ne literal stops notBang
  obtain ⟨parsed, filled, parsedLine, ended⟩ := Run.bind_done.mp ended
  obtain ⟨_, _, same, ended⟩ := Run.bind_done.mp ended
  cases same
  unfold parseLine at parsedLine
  change (eof >>= _) begun = _ at parsedLine
  have noNewline : newline found = .done false found := by
    unfold newline
    rw [Run.bind_of_done (facing.symbol .newline)]
    rfl
  rw [eof, Run.bind_of_done (symbol .eofToken), if_neg (by decide), Run.bind_of_done noNewline, if_neg (by decide)]
    at parsedLine
  obtain ⟨body, between, expected, parsedLine⟩ := Run.bind_done.mp parsedLine
  cases body with
  | none =>
      obtain ⟨_, _, _, parsedLine⟩ := Run.bind_done.mp parsedLine
      obtain ⟨_, _, _, parsedLine⟩ := Run.bind_done.mp parsedLine
      obtain ⟨_, _, _, parsedLine⟩ := Run.bind_done.mp parsedLine
      cases parsedLine
      cases ended
  | some body =>
      have isName := expectCompleteCommand_firstName named noBang expected
      have onlyBody : ∀ (isEnded : Bool) before, (if isEnded then pure (some ⟨body⟩) else do
          parserSetError "expected a newline".toList
          parseLineError : Parse (Option Program)) before = .done parsed filled → ∀ whole, parsed = some whole →
            whole = ⟨body⟩ := by
        intro isEnded before ended whole isSome
        subst isSome
        cases isEnded with
        | true =>
            cases ended
            rfl
        | false =>
            obtain ⟨_, _, _, ended⟩ := Run.bind_done.mp ended
            obtain ⟨_, _, _, ended⟩ := Run.bind_done.mp ended
            obtain ⟨_, _, _, ended⟩ := Run.bind_done.mp ended
            obtain ⟨_, _, _, ended⟩ := Run.bind_done.mp ended
            cases ended
      obtain ⟨atEnd, _, _, parsedLine⟩ := Run.bind_done.mp parsedLine
      have wholeBody : ∀ whole, parsed = some whole → whole = ⟨body⟩ := by
        cases atEnd with
        | true => exact onlyBody true _ parsedLine
        | false =>
            obtain ⟨isEnded, _, _, parsedLine⟩ := Run.bind_done.mp parsedLine
            exact onlyBody isEnded _ parsedLine
      cases parsed with
      | none => cases ended
      | some whole =>
          obtain rfl := wholeBody whole rfl
          cases ended
          obtain ⟨finish, isName⟩ := isName
          rw [samePos] at isName
          exact ⟨finish, by rw [Program.firstName_fill, isName]; rfl⟩

/-- The positions of the name that a program starts with show that there was a reset. -/
theorem reset_shows (fuel : Nat) (parser : Parser) (literal : LiteralWord w) (stops : StopsWord tail)
    (opens : OpensCommand w tail) (notBang : w.head? ≠ some '!') (notKeyword : w ∉ keywords)
    (notReserved : w ∉ reservedWords) (notAlias : ∀ aliasFunc, parser.aliasFunc = some aliasFunc → aliasFunc w = none)
    {prog : Program} {error : Option (Str × Position)}
    (parsed : parsedLine (fuel + 3) (freshParser parser (w ++ tail)) = some (some prog, error)) :
    ¬ ResetShowsNothing (fuel + 3) parser (w ++ tail) := by
  rintro ⟨result, afterReset, fresh⟩
  rw [parsed] at fresh
  cases fresh
  have named : ∀ before : Parser, before.buf = w ++ tail → before.hasSym = false →
      (∀ aliasFunc, before.aliasFunc = some aliasFunc → aliasFunc w = none) →
      parsedLine (fuel + 3) before = some (some prog, error) → IsNameAt w before.pos prog.firstName := by
    intro before buf idle noAlias result
    unfold parsedLine at result
    cases ended : mrshParseLine (fuel + 3) before with
    | stopped reason after =>
        rw [ended] at result
        cases result
    | done value after =>
        rw [ended] at result
        cases result
        exact mrshParseLine_firstName literal stops opens notBang notKeyword notReserved buf idle noAlias ended
  obtain ⟨_, isFirst⟩ := named ((mrshParserReset parser).refilled (w ++ tail)) rfl rfl notAlias afterReset
  obtain ⟨_, isName⟩ :=
    named (freshParser parser (w ++ tail)) rfl rfl (by intro aliasFunc isTable; cases isTable) parsed
  rw [isFirst] at isName
  cases isName

/-- Whatever the parser has been used for, a reset shows nothing of it before a line without a
command, and it does before a line that names one. -/
theorem resetShowsNothing_blankLine (fuel : Nat) (parser : Parser) (text : Str) :
    (blankLine text = true → ResetShowsNothing fuel parser text) ∧
      ∀ w tail, text = w ++ tail → LiteralWord w → StopsWord tail → OpensCommand w tail → w.head? ≠ some '!' →
        w ∉ keywords → w ∉ reservedWords → (∀ aliasFunc, parser.aliasFunc = some aliasFunc → aliasFunc w = none) →
        (∃ prog error, parsedLine (fuel + 3) (freshParser parser text) = some (some prog, error)) →
        ¬ ResetShowsNothing (fuel + 3) parser text := by
  constructor
  · intro blank
    obtain ⟨result, uniform⟩ := parsedLine_blankLine fuel blank
    exact ⟨result, uniform _ rfl rfl, uniform _ rfl rfl⟩
  · rintro w tail rfl literal stops opens notBang notKeyword notReserved notAlias ⟨prog, error, parsed⟩
    exact reset_shows fuel parser literal stops opens notBang notKeyword notReserved notAlias parsed

theorem resetShowsNothing_comment :
    ResetShowsNothing 0 { mrshParserWithData
      [] with error := some (['x'], .invalid), arithNestedParens := 2 } " # c\n".toList ∧
      ¬ ResetShowsNothing 8 (mrshParserWithData []) "a\n".toList :=
  ⟨(resetShowsNothing_blankLine 0 _ _).1 rfl,
    (resetShowsNothing_blankLine 5 _ _).2 ['a'] ['\n'] rfl ⟨by decide, by decide, by decide⟩ (.inr (.inl rfl))
      ⟨by decide, by decide, by decide, by simp⟩ (by decide) (by decide) (by decide)
      (by intro aliasFunc isTable; cases isTable) ⟨_, _, rfl⟩⟩

/-- The name in `a` is at line 0 after a reset. -/
theorem resetShows_name :
    ¬ ∀ (fuel : Nat) (parser : Parser) (text : Str),
      (∃ result, parsedLine fuel (freshParser parser text) = some result) → ResetShowsNothing fuel parser text := by
  intro claimed
  have parsed :
    ∃ prog error, parsedLine 8 (freshParser (mrshParserWithData []) "a\n".toList) = some (some prog, error) :=
    ⟨_, _, rfl⟩
  obtain ⟨prog, error, parsed⟩ := parsed
  exact @reset_shows ['a'] ['\n'] 5 (mrshParserWithData []) ⟨by decide, by decide, by decide⟩
    (.inr (.inl rfl)) ⟨by decide, by decide, by decide, by simp⟩ (by decide) (by decide) (by decide)
    (by intro aliasFunc isTable; cases isTable) prog error parsed (claimed 8 _ _ ⟨_, parsed⟩)

end Mrsh
