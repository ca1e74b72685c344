import Mrsh.Parser.Shortening
import Mrsh.Parser.LiteralWord

namespace Mrsh

open Mrsh.Data

/-! # Words that only begin like a reserved word

A reserved word of letters is compared with the whole word that is ahead, and a reserved
word of one other character with the next character only.
-/

/-- The word at the start of a command: it is ahead of the parser, which has no error, and
it is not the name of an alias. -/
structure WordAhead (w tail : Str) (parser : Parser) : Prop where
  buf : parser.buf = w ++ tail
  settled : parser.hasSym = true → parser.sym = .token
  noError : parser.error = none
  notAlias : ∀ aliasFunc, parser.aliasFunc = some aliasFunc → aliasFunc w = none

/-- A simple command of which only the name has been read, if there is one. -/
def SimpleCommand.called (name : Option Word) : SimpleCommand :=
  { name, arguments := [], ioRedirects := [], assignments := [] }

/-- What comes before the name of a simple command in `command` reads nothing, and the
word is read as the name, with the position where it starts. -/
def CommandNamed (self : Productions) (w tail : Str) (parser : Parser) : Prop :=
  ∃ aliased declined bare range after,
    applyAliases self parser = .done () aliased ∧
      compoundCommand self aliased = .done none declined ∧ declined.error = none ∧
      cmdPrefix self (.called none) declined = .done none bare ∧ bare.error = none ∧
      cmdName self bare = .done (some (.string w false false range)) after ∧ after.buf = tail ∧ range.begin = parser.pos

/-- The same at the start of a pipeline, where `!` comes first. -/
def PipelineNamed (self : Productions) (w tail : Str) (parser : Parser) : Prop :=
  ∃ found, token ['!'] parser = .done none found ∧ CommandNamed self w tail found

/-- The condition for it. The characters behind the name at the start of the word make it an
assignment, a label or a function definition. -/
structure OpensCommand (w tail : Str) : Prop where
  notGroup : w.head? ≠ some '{' ∧ w.head? ≠ some '('
  afterName : nameLength false true w ≠ 0 → charAt (w ++ tail) (nameLength false true w) ∉ [':', '=']
  noFunction : nameLength false true w ≠ 0 → parenFollows ((w ++ tail).drop (nameLength false true w)) = false
  notNumber : ∀ c, w = [c] → c.isDigit = true → charAt tail 0 ∉ ['<', '>']

variable {w tail : Str} {parser found after : Parser}

theorem CommandNamed.command_eq {self : Productions} (named : CommandNamed self w tail parser) (more : self.fuel ≠ 0) :
    ∃ range after, after.buf = tail ∧ range.begin = parser.pos ∧ command self parser =
      (do
        let cmd ← repeatPart (cmdSuffix self) self.fuel (.called (some (.string w false false range)))
        pure (some (.simpleCommand cmd)) : Parse (Option Command)) after := by
  obtain ⟨aliased, declined, bare, range, after, aliases, compound, noError, noPrefix, _, name, rest, begins⟩ := named
  obtain ⟨fuel, fuelEq⟩ := Nat.exists_eq_succ_of_ne_zero more
  refine ⟨range, after, rest, begins, ?_⟩
  have noFailure : mrshParserError declined = .done none declined := by simp [mrshParserError, noError]
  have prefixRead : repeatPart (cmdPrefix self) self.fuel (.called none) declined = .done (.called none) bare := by
    rw [fuelEq]
    exact Run.bind_of_done noPrefix
  have simple : simpleCommand self declined =
      (do
        let cmd ← repeatPart (cmdSuffix self) self.fuel (.called (some (.string w false false range)))
        pure (some cmd) : Parse (Option SimpleCommand)) after := by
    unfold simpleCommand
    exact (Run.bind_of_done prefixRead).trans (Run.bind_of_done name)
  unfold command
  rw [Run.bind_of_done aliases, Run.bind_of_done compound]
  apply (Run.bind_of_done noFailure).trans
  change (simpleCommand self declined).andThen
    (fun sc => (pure (sc.map Command.simpleCommand) : Parse (Option Command))) = _
  rw [simple, Run.bind_apply, Run.bind_apply]
  cases repeatPart (cmdSuffix self) self.fuel (.called (some (.string w false false range))) after <;> rfl

/-! ## What is ahead -/

theorem WordAhead.symbol (ahead : WordAhead w tail parser) (literal : LiteralWord w) :
    ∃ found, (∀ name, Mrsh.symbol name parser = .done (.token == name) found) ∧ Facing .token (w ++ tail) found ∧
      found.error = none ∧ found.aliasFunc = parser.aliasFunc ∧ found.pos = parser.pos := by
  have starts : symbolAt parser.buf = some .token := by
    rw [ahead.buf]
    exact literal.symbolAt
  cases pending : parser.hasSym with
  | true =>
      have facing : Facing .token (w ++ tail) parser := ⟨ahead.buf, pending, ahead.settled pending⟩
      exact ⟨parser, facing.symbol, facing, ahead.noError, rfl, rfl⟩
  | false =>
      refine ⟨{ parser with hasSym := true, sym := .token }, ?_, ⟨ahead.buf, rfl, rfl⟩, ahead.noError, rfl, rfl⟩
      intro name
      have next := nextSymbolWithin_of_symbolAt parser parser.buf.length starts
      simp [Mrsh.symbol, getSymbol, pending, nextSymbol, bufferFuel, next]

theorem applyAliases_word (symbol : ∀ name, Mrsh.symbol name parser = .done (.token == name) found)
    (facing : Facing .token (w ++ tail) found) (literal : LiteralWord w) (stops : StopsWord tail)
    (notAlias : ∀ aliasFunc, parser.aliasFunc = some aliasFunc → aliasFunc w = none) (fuel : Nat) :
    ∃ aliased, applyAliases (productions (fuel + 2)) parser = .done () aliased ∧
      (aliased = parser ∨ aliased = found) := by
  cases aliases : parser.aliasFunc with
  | none => exact ⟨parser, by simp [applyAliases, aliases], .inl rfl⟩
  | some aliasFunc =>
      refine ⟨found, ?_, .inr rfl⟩
      have unknown := notAlias aliasFunc aliases
      have measured : ∃ n, peekAlias found = .done n found ∧ (n = 0 ∨ n = w.length) := by
        refine ⟨if ((w ++ tail).take w.length).all isAliasChar then w.length else 0, ?_, by split <;> simp⟩
        unfold peekAlias
        rw [Run.bind_of_done (facing.peekWord_literal literal stops), Run.gets_bind, facing.buf]
        rfl
      obtain ⟨n, peeked, size⟩ := measured
      rw [applyAliases, Run.gets_bind, aliases]
      change applyAliasesLoop aliasFunc (fuel + 1) none parser = _
      rw [applyAliasesLoop, Run.bind_of_done (symbol .token), if_pos (by decide), Run.bind_of_done peeked]
      rcases size with rfl | rfl
      · rfl
      · have nonempty : ¬ (w.length == 0) = true := by simpa using literal.nonempty
        rw [if_neg nonempty, Run.gets_bind, facing.buf, List.take_left, unknown]
        rfl

/-! ## Reserved words of one character -/

/-- A character that is no letter is taken as a token whatever comes behind it. -/
theorem token_takes {c : Char} {rest : Str} (symbol : Mrsh.symbol .token parser = .done true found)
    (buf : found.buf = c :: rest) (notLetter : c.isAlpha = false) (visible : c ≠ '\x00') :
    ∃ range between, token [c] parser = .done (some range) between := by
  have peeked : parserPeekChar found = .done c found := parserPeekChar_cons buf
  have read := parserReadChar_cons buf visible
  have taken : ∃ range between, token.consumed found.pos (found.moved rest (found.pos.advance c) false) =
      .done (some range) between := ⟨_, _, rfl⟩
  obtain ⟨range, between, taken⟩ := taken
  refine ⟨range, between, ?_⟩
  unfold token
  rw [Run.bind_of_done symbol, if_pos rfl, getPos, Run.gets_bind]
  simp only [notLetter, Bool.false_eq_true, if_false]
  rw [Run.bind_of_done peeked, if_pos (by simp), Run.bind_of_done read]
  exact taken

theorem groupOf_opened {self : Productions} {opening closing : Str} {range : Range} {between : Parser}
    (opened : token opening parser = .done (some range) between)
    (refused : groupOf self opening closing parser = .done none after) : after.error ≠ none := by
  unfold groupOf at refused
  rw [getPos, Run.gets_bind, Run.bind_of_done opened] at refused
  refine (?_ : Complains _) refused
  refine .bindOption expectCompoundList_complains rfl fun body => .bind fun closePos => ?_
  exact .bindOption (expectToken_complains _) rfl fun _ => .some _

/-- An alternative that is not there without an error ends the search. -/
theorem firstCommand_complains {parse : Parse (Option Command)} {rest : List (Parse (Option Command))}
    (complains : ∀ between, parse parser = .done none between → between.error ≠ none)
    (refused : firstCommand (parse :: rest) parser = .done none after) : after.error ≠ none := by
  obtain ⟨value, between, read, refused⟩ := Run.bind_done.mp refused
  cases value with
  | some cmd => cases refused
  | none =>
      have failed := complains between read
      obtain ⟨error, same, checked, refused⟩ := Run.bind_done.mp refused
      obtain ⟨isError, rfl⟩ := mrshParserError_done checked
      cases error with
      | none => exact absurd (Option.map_eq_none_iff.mp isError.symm) failed
      | some error =>
          cases refused
          exact failed

theorem mapped_complains {α β : Type} {parse : Parse (Option α)} {change : α → β}
    (complains : ∀ between, parse parser = .done none between → between.error ≠ none) (between : Parser)
    (refused : (do pure ((← parse).map change) : Parse (Option β)) parser = .done none between) :
    between.error ≠ none := by
  obtain ⟨value, _, read, refused⟩ := Run.bind_done.mp refused
  cases value with
  | none =>
      cases refused
      exact complains _ read
  | some value => cases refused

theorem braceGroup_opened {self : Productions} {range : Range} {between : Parser}
    (opened : token ['{'] parser = .done (some range) between) (after : Parser)
    (refused : braceGroup self parser = .done none after) : after.error ≠ none := by
  obtain ⟨group, _, read, refused⟩ := Run.bind_done.mp refused
  cases group with
  | none =>
      cases refused
      exact groupOf_opened opened read
  | some group => cases refused

theorem subshell_opened {self : Productions} {range : Range} {between : Parser}
    (opened : token ['('] parser = .done (some range) between) (after : Parser)
    (refused : subshell self parser = .done none after) : after.error ≠ none := by
  obtain ⟨group, _, read, refused⟩ := Run.bind_done.mp refused
  cases group with
  | none =>
      cases refused
      exact groupOf_opened opened read
  | some group => cases refused

/-! ## The productions before the name -/

theorem failed_allowsReading :
    AllowsReading fun before after : Parser => before.error ≠ none → after.error ≠ none where
  refl := ⟨fun _ failed => failed⟩
  trans := ⟨fun _ _ _ first second failed => second (first failed)⟩
  readChar _ _ _ _ failed := failed
  symbol _ _ _ failed := failed
  continuation _ failed := failed
  error _ _ _ _ := Option.some_ne_none _

theorem ioRedirect_numbered {self : Productions} {number : Nat} {between : Parser}
    (numbered : ioNumber parser = .done (some number) between)
    (refused : ioRedirect self parser = .done none after) : after.error ≠ none := by
  unfold ioRedirect at refused
  rw [getPos, Run.gets_bind, Run.bind_of_done numbered] at refused
  obtain ⟨file, _, _, refused⟩ := Run.bind_done.mp refused
  cases file with
  | some file =>
      obtain ⟨_, _, _, refused⟩ := Run.bind_done.mp refused
      cases refused
  | none =>
      obtain ⟨here, _, _, refused⟩ := Run.bind_done.mp refused
      cases here with
      | some here =>
          obtain ⟨_, _, _, refused⟩ := Run.bind_done.mp refused
          obtain ⟨_, _, _, refused⟩ := Run.bind_done.mp refused
          cases refused
      | none =>
          obtain ⟨_, _, failed, refused⟩ := Run.bind_done.mp refused
          cases refused
          exact parserSetError_error failed

theorem assignmentWord_failed {self : Productions} (refused : assignmentWord self parser = .done none after)
    (failed : parser.error ≠ none) : after.error ≠ none := by
  obtain ⟨isToken, looked, tested, refused⟩ := Run.bind_done.mp refused
  have first := (symbol_respects failed_allowsReading _).keeps tested failed
  cases isToken with
  | false =>
      cases refused
      exact first
  | true =>
      obtain ⟨nameLen, between, measured, refused⟩ := Run.bind_done.mp refused
      have second := (peekName_respects failed_allowsReading _).keeps measured first
      obtain ⟨next, _, peeked, refused⟩ := Run.bind_done.mp refused
      cases peeked
      split at refused
      · cases refused
        exact second
      · obtain ⟨tok, _, _, refused⟩ := Run.bind_done.mp refused
        cases tok with
        | none => cases refused
        | some tok =>
            obtain ⟨_, _, _, refused⟩ := Run.bind_done.mp refused
            obtain ⟨_, _, _, refused⟩ := Run.bind_done.mp refused
            obtain ⟨_, _, _, refused⟩ := Run.bind_done.mp refused
            cases refused

/-! ## Names of simple commands -/

section

variable {self : Productions} (facing : Facing .token (w ++ tail) found) (literal : LiteralWord w)
  (stops : StopsWord tail)
include facing literal stops

theorem functionCommand_named (notReserved : w ∉ reservedWords)
    (noColon : nameLength false true w ≠ 0 → charAt (w ++ tail) (nameLength false true w) ≠ ':')
    (noFunction : nameLength false true w ≠ 0 → parenFollows ((w ++ tail).drop (nameLength false true w)) = false) :
    functionCommand self found = .done none found := by
  unfold functionCommand
  rw [Run.bind_of_done (facing.unspecifiedWord_false literal stops notReserved noColon)]
  exact Run.bind_of_done (facing.functionDefinition_none stops noFunction self)

omit literal in
/-- A name with a parenthesis behind it is a function definition, or an error. -/
theorem functionDefinition_opened (isName : nameLength false true w ≠ 0)
    (paren : parenFollows ((w ++ tail).drop (nameLength false true w)) = true)
    (refused : functionDefinition self found = .done none after) : after.error ≠ none := by
  have goesOn :
    ¬ (nameLength false true w == 0 || !parenFollows ((w ++ tail).drop (nameLength false true w))) = true := by
    simp [isName, paren]
  unfold functionDefinition at refused
  rw [Run.bind_of_done (facing.peekName_word stops), Run.gets_bind, facing.buf, if_neg goesOn] at refused
  exact functionDefinition_complains _ refused

/-- A label, or a name with a parenthesis behind it, is no simple command. -/
theorem functionCommand_opened (notReserved : w ∉ reservedWords) (isName : nameLength false true w ≠ 0)
    (opens : charAt (w ++ tail) (nameLength false true w) = ':' ∨
      parenFollows ((w ++ tail).drop (nameLength false true w)) = true)
    (after : Parser) (refused : functionCommand self found = .done none after) : after.error ≠ none := by
  obtain ⟨unspecified, between, specified, refused⟩ := Run.bind_done.mp refused
  cases unspecified with
  | true =>
      cases refused
      exact unspecifiedWord_error specified
  | false =>
      have noColon : charAt (w ++ tail) (nameLength false true w) ≠ ':' := by
        intro colon
        have notEmpty : ¬ (w.length == 0) = true := by simpa using literal.nonempty
        unfold unspecifiedWord at specified
        rw [Run.bind_of_done (facing.peekWord_literal literal stops), if_neg notEmpty, Run.gets_bind, facing.buf,
          List.take_left, if_neg notReserved, Run.bind_of_done (facing.peekName_word stops), parserPeekAt,
          Run.gets_bind, facing.buf, colon, if_pos (by simpa using isName)] at specified
        cases specified
      have same := facing.unspecifiedWord_false literal stops notReserved fun _ => noColon
      rw [same] at specified
      cases specified
      exact mapped_complains (fun between refused =>
        functionDefinition_opened facing stops isName (opens.resolve_left noColon) refused) after refused

omit stops in
theorem ioNumber_opened {c : Char} (single : w = [c]) (isDigit : c.isDigit = true)
    (redirects : charAt tail 0 ∈ ['<', '>']) :
    ∃ number between, ioNumber found = .done (some number) between := by
  subst single
  have isLit := literal.chars c List.mem_cons_self
  have read := parserReadChar_cons facing.buf (isLiteral_ne isLit (by decide))
  have next : charAt ([c] ++ tail) 1 = charAt tail 0 := rfl
  have numbered :
    ((charAt ([c] ++ tail) 0).isDigit && (charAt ([c] ++ tail) 1 == '<' || charAt ([c] ++ tail) 1 == '>')) = true := by
    rw [next]
    change (c.isDigit && (charAt tail 0 == '<' || charAt tail 0 == '>')) = true
    simpa [isDigit] using redirects
  unfold ioNumber
  rw [Run.bind_of_done (facing.symbol .token), if_pos (by decide), parserPeekChar, parserPeekAt, Run.gets_bind,
    parserPeekAt, Run.gets_bind, facing.buf,
    if_pos numbered, Run.bind_of_done read]
  exact ⟨_, _, rfl⟩

omit literal in
theorem assignmentWord_opened (isName : nameLength false true w ≠ 0)
    (equal : charAt (w ++ tail) (nameLength false true w) = '=') : assignmentWord self found ≠ .done none after := by
  intro refused
  have goesOn : ¬ (nameLength false true w == 0 || charAt (w ++ tail) (nameLength false true w) != '=') = true := by
    simp [isName, equal]
  unfold assignmentWord at refused
  rw [Run.bind_of_done (facing.symbol .token), if_pos (by decide), Run.bind_of_done (facing.peekName_word stops),
    parserPeekAt, Run.gets_bind, facing.buf, if_neg goesOn] at refused
  obtain ⟨tok, _, _, refused⟩ := Run.bind_done.mp refused
  cases tok with
  | none => cases refused
  | some tok =>
      obtain ⟨_, _, _, refused⟩ := Run.bind_done.mp refused
      obtain ⟨_, _, _, refused⟩ := Run.bind_done.mp refused
      obtain ⟨_, _, _, refused⟩ := Run.bind_done.mp refused
      cases refused

/-- The command that starts with the word is named by it under the condition only. -/
theorem commandNamed_iff_opens {fuel : Nat} (symbol : ∀ name, Mrsh.symbol name parser = .done (.token == name) found)
    (noError : found.error = none) (notKeyword : w ∉ keywords) (notReserved : w ∉ reservedWords)
    (notAlias : ∀ state ∈ [parser, found], ∀ aliasFunc, state.aliasFunc = some aliasFunc → aliasFunc w = none)
    (samePos : found.pos = parser.pos) :
    CommandNamed (productions (fuel + 2)) w tail parser ↔ OpensCommand w tail := by
  have notOpening : w ∉ openings := by
    have keyword : ∀ str ∈ openings, str ∈ keywords := by decide
    exact fun isOpening => notKeyword (keyword w isOpening)
  obtain ⟨aliased, aliases, stays⟩ := applyAliases_word symbol facing literal stops (notAlias _ (by simp)) fuel
  have looks : ∀ name, Mrsh.symbol name aliased = .done (.token == name) found := by
    rcases stays with rfl | rfl
    · exact symbol
    · exact facing.symbol
  have noAliases : applyAliases (productions (fuel + 2)) found = .done () found := by
    obtain ⟨again, applied, same⟩ := applyAliases_word facing.symbol facing literal stops (notAlias _ (by simp)) fuel
    obtain rfl : again = found := by simpa using same
    exact applied
  constructor
  · rintro ⟨_, declined, bare, range, after, applied, compound, noFailure, noPrefix, bareOk, name, rest⟩
    rw [aliases] at applied
    cases applied
    have notBrace : w.head? ≠ some '{' := by
      intro head
      obtain ⟨word, rfl⟩ := List.head?_eq_some_iff.mp head
      obtain ⟨_, _, opened⟩ := token_takes (looks .token) facing.buf (by decide) (by decide)
      exact firstCommand_complains (mapped_complains (braceGroup_opened opened)) compound noFailure
    have noBrace : braceGroup (productions (fuel + 2)) aliased = .done none found := by
      have closed : token ['{'] aliased = .done none found :=
        (token_looks looks facing _).trans (facing.token_head_ne literal stops notBrace)
      have noGroup : groupOf (productions (fuel + 2)) ['{'] ['}'] aliased = .done none found := Run.bind_of_done closed
      exact Run.bind_of_done noGroup
    have notParen : w.head? ≠ some '(' := by
      intro head
      obtain ⟨word, rfl⟩ := List.head?_eq_some_iff.mp head
      obtain ⟨_, _, opened⟩ := token_takes (facing.symbol .token) facing.buf (by decide) (by decide)
      rw [compoundCommand, firstCommand_skip _ (mapped_none noBrace) noError] at compound
      exact firstCommand_complains (mapped_complains (subshell_opened opened)) compound noFailure
    have onlyFunction := facing.compoundCommand_word looks literal stops notOpening noError (productions (fuel + 2))
      ⟨notBrace, notParen⟩
    rw [onlyFunction] at compound
    have noColon : nameLength false true w ≠ 0 → charAt (w ++ tail) (nameLength false true w) ≠ ':' :=
      fun isName colon =>
        firstCommand_complains (functionCommand_opened facing literal stops notReserved isName (.inl colon))
          compound noFailure
    have noFunction : nameLength false true w ≠ 0 →
        parenFollows ((w ++ tail).drop (nameLength false true w)) = false := by
      intro isName
      by_contra paren
      exact firstCommand_complains (functionCommand_opened facing literal stops notReserved isName
        (.inr (by simpa using paren))) compound noFailure
    rw [firstCommand_skip _ (functionCommand_named facing literal stops notReserved noColon noFunction) noError]
      at compound
    cases compound
    obtain ⟨redir, between, redirected, noPrefix⟩ := Run.bind_done.mp noPrefix
    cases redir with
    | some redir => cases noPrefix
    | none =>
        obtain ⟨assign, _, assigned, noPrefix⟩ := Run.bind_done.mp noPrefix
        cases assign with
        | some assign => cases noPrefix
        | none =>
            cases noPrefix
            have notNumber : ∀ c, w = [c] → c.isDigit = true → charAt tail 0 ∉ ['<', '>'] := by
              intro c single isDigit redirects
              obtain ⟨_, _, numbered⟩ := ioNumber_opened facing literal single isDigit redirects
              exact assignmentWord_failed assigned (ioRedirect_numbered numbered redirected) bareOk
            refine ⟨⟨notBrace, notParen⟩, fun isName => ?_, noFunction, notNumber⟩
            rw [facing.ioRedirect_literal literal stops notNumber] at redirected
            cases redirected
            simp only [List.mem_cons, List.not_mem_nil, or_false, not_or]
            exact ⟨noColon isName, fun equal => assignmentWord_opened facing stops isName equal assigned⟩
  · intro opens
    have noColon : nameLength false true w ≠ 0 → charAt (w ++ tail) (nameLength false true w) ≠ ':' :=
      fun isName same => opens.afterName isName (by simp [same])
    have notAssigned : nameLength false true w ≠ 0 → charAt (w ++ tail) (nameLength false true w) ≠ '=' :=
      fun isName same => opens.afterName isName (by simp [same])
    have compound : compoundCommand (productions (fuel + 2)) aliased = .done none found := by
      rw [facing.compoundCommand_word looks literal stops notOpening noError _ opens.notGroup,
        firstCommand_skip _ (functionCommand_named facing literal stops notReserved noColon opens.noFunction) noError]
      rfl
    have noPrefix : cmdPrefix (productions (fuel + 2)) (.called none) found = .done none found := by
      unfold cmdPrefix
      rw [Run.bind_of_done (facing.ioRedirect_literal literal stops opens.notNumber _)]
      exact Run.bind_of_done (facing.assignmentWord_none stops notAssigned _)
    obtain ⟨_, _, name⟩ := facing.cmdName_word literal stops _ noAliases notKeyword
    exact ⟨aliased, found, found, _, _, aliases, compound, noError, noPrefix, noError, name, rfl, samePos⟩

end

/-- A word that is no reserved word names the command that it starts, unless it starts with a
reserved word of one character or is a word of another kind. -/
theorem pipelineNamed_iff (fuel : Nat) (w tail : Str) (parser : Parser) (literal : LiteralWord w)
    (stops : StopsWord tail)
    (ahead : WordAhead w tail parser) (notKeyword : w ∉ keywords) (notReserved : w ∉ reservedWords) :
    (PipelineNamed (productions (fuel + 2)) w tail parser ↔ w.head? ≠ some '!' ∧ OpensCommand w tail) ∧
      (CommandNamed (productions (fuel + 2)) w tail parser ↔ OpensCommand w tail) := by
  obtain ⟨found, symbol, facing, noError, sameAlias, samePos⟩ := ahead.symbol literal
  have notAlias : ∀ state ∈ [parser, found], ∀ aliasFunc, state.aliasFunc = some aliasFunc → aliasFunc w = none := by
    simp only [List.forall_mem_cons, List.not_mem_nil, false_imp_iff, implies_true, and_true, sameAlias]
    exact ⟨ahead.notAlias, ahead.notAlias⟩
  have fromFound :=
    @commandNamed_iff_opens w tail found found facing literal stops fuel facing.symbol noError notKeyword
    notReserved (by simpa using notAlias found (by simp)) rfl
  refine ⟨?_, commandNamed_iff_opens facing literal stops symbol noError notKeyword notReserved notAlias samePos⟩
  by_cases head : w.head? = some '!'
  · obtain ⟨word, rfl⟩ := List.head?_eq_some_iff.mp head
    obtain ⟨_, _, taken⟩ := token_takes (symbol .token) facing.buf (by decide) (by decide)
    constructor
    · rintro ⟨_, noBang, -⟩
      rw [taken] at noBang
      cases noBang
    · rintro ⟨notBang, -⟩
      exact absurd head notBang
  · have noBang : token ['!'] parser = .done none found :=
      (token_looks symbol facing _).trans (facing.token_head_ne literal stops head)
    constructor
    · rintro ⟨_, same, named⟩
      rw [noBang] at same
      cases same
      exact ⟨head, fromFound.mp named⟩
    · rintro ⟨-, opens⟩
      exact ⟨found, noBang, fromFound.mpr opens⟩

theorem wordAhead_data (text : Str) : WordAhead text [] (mrshParserWithData text) where
  buf := (List.append_nil text).symm
  settled := by intro pending; cases pending
  noError := rfl
  notAlias := by intro aliasFunc isTable; cases isTable

theorem pipelineNamed_done :
    PipelineNamed (productions 2) "done2".toList [] (mrshParserWithData "done2".toList) ∧
      CommandNamed (productions 2) "done2".toList [] (mrshParserWithData "done2".toList) := by
  have literal : LiteralWord "done2".toList := ⟨by decide, by decide, by decide⟩
  have opens : OpensCommand "done2".toList [] := ⟨by decide, by decide, by decide, by simp⟩
  have named := pipelineNamed_iff 0 "done2".toList [] _ literal (.inl rfl) (wordAhead_data _) (by decide) (by decide)
  exact ⟨named.1.mpr ⟨by decide, opens⟩, named.2.mpr opens⟩

/-- `{foo` starts a group. -/
theorem pipelineNamed_brace :
    ¬ ∀ (fuel : Nat) (w tail : Str) (parser : Parser), LiteralWord w → StopsWord tail → WordAhead w tail parser →
      w ∉ keywords → w ∉ reservedWords → PipelineNamed (productions (fuel + 2)) w tail parser := by
  intro claimed
  have literal : LiteralWord "\x7bfoo".toList := ⟨by decide, by decide, by decide⟩
  have ahead := wordAhead_data "\x7bfoo".toList
  obtain ⟨found, noBang, named⟩ := claimed 0 "\x7bfoo".toList [] _ literal (.inl rfl) ahead (by decide) (by decide)
  obtain ⟨looked, symbol, facing, noError, noAlias, _⟩ := ahead.symbol literal
  rw [token_looks symbol facing, facing.token_head_ne literal (.inl rfl) (by decide)] at noBang
  cases noBang
  have opens := (commandNamed_iff_opens facing literal (.inl rfl) facing.symbol noError (by decide) (by decide)
    (by simp [noAlias, mrshParserWithData]) rfl).mp named
  exact opens.notGroup.1 rfl

end Mrsh
