import Mrsh.Parser.Quoting

namespace Mrsh

open Mrsh.Data

/-! # Literal words

A word without quotes and expansions is read as it is. As the first word of a command
it is its name, if no production that comes before the simple command takes it.
-/

/-- A character that `word` reads as it is. -/
def isLiteral (c : Char) : Bool :=
  !(c == '\x00' || c == '\n' || c == ')' || c == '$' || c == '\x60' || c == '\'' || c == '"' || c == '\\' ||
    isOperatorStart c || isBlank c)

structure LiteralWord (w : Str) : Prop where
  nonempty : w ≠ []
  chars : ∀ c ∈ w, isLiteral c = true
  notComment : w.head? ≠ some '#'

/-- The keywords that a compound command starts with. -/
def openings : List Str := ["if".toList, "for".toList, "while".toList, "until".toList, "case".toList]

/-- A text that starts with a word which no compound command starts with. -/
structure Begins (w tail : Str) : Prop where
  literal : LiteralWord w
  stops : StopsWord tail
  notGroup : w.head? ≠ some '{' ∧ w.head? ≠ some '('
  notOpening : w ∉ openings
  notReserved : w ∉ reservedWords
  afterName : nameLength false true w ≠ 0 → charAt (w ++ tail) (nameLength false true w) ∉ [':', '=']

/-- A text that starts with a word which only `simple_command` can take. -/
structure Names (w tail : Str) : Prop extends Begins w tail where
  noFunction : nameLength false true w ≠ 0 → parenFollows ((w ++ tail).drop (nameLength false true w)) = false

theorem isLiteral_ne {c d : Char} (literal : isLiteral c = true) (other : isLiteral d = false) : c ≠ d := by
  rintro rfl
  rw [literal] at other
  cases other

theorem isLiteral_plain {c : Char} (literal : isLiteral c = true) :
    isOperatorStart c = false ∧ isBlank c = false := by
  simp only [isLiteral, Bool.not_eq_true', Bool.or_eq_false_iff] at literal
  exact ⟨literal.1.2, literal.2⟩

theorem stopsWord_cons (c : Char) (tail : Str) :
    StopsWord (c :: tail) ↔ c ∈ ['\x00', '\n', ')', '&', '|', ';', '<', '>', ' ', '\t'] := by
  simp [StopsWord, charAt, isOperatorStart, isBlank]
  tauto

variable {w tail rest text : Str} {parser : Parser} {sym : SymbolName}

/-! ## Lengths -/

theorem wordLength_stops (stops : StopsWord tail) : wordLength '\x00' tail = some 0 := by
  cases tail with
  | nil => rfl
  | cons c rest =>
      rw [stopsWord_cons] at stops
      simp only [List.mem_cons, List.not_mem_nil, or_false] at stops
      rcases stops with rfl | rfl | rfl | rfl | rfl | rfl | rfl | rfl | rfl | rfl <;> rfl

theorem wordLength_cons {c : Char} (literal : isLiteral c = true) :
    wordLength '\x00' (c :: rest) = (wordLength '\x00' rest).map (· + 1) := by
  obtain ⟨notOperator, notBlank⟩ := isLiteral_plain literal
  have ne : ∀ d, isLiteral d = false → (c == d) = false := fun d other => beq_false_of_ne (isLiteral_ne literal other)
  simp [wordLength, notOperator, notBlank, ne _ (show isLiteral '\x00' = false from rfl),
    ne _ (show isLiteral '\n' = false from rfl), ne _ (show isLiteral ')' = false from rfl),
    ne _ (show isLiteral '$' = false from rfl), ne _ (show isLiteral '\x60' = false from rfl),
    ne _ (show isLiteral '\'' = false from rfl), ne _ (show isLiteral '"' = false from rfl),
    ne _ (show isLiteral '\\' = false from rfl)]

theorem wordLength_literal (chars : ∀ c ∈ w, isLiteral c = true) (stops : StopsWord tail) :
    wordLength '\x00' (w ++ tail) = some w.length := by
  induction w with
  | nil => exact wordLength_stops stops
  | cons c w ih =>
      rw [List.forall_mem_cons] at chars
      rw [List.cons_append, wordLength_cons chars.1, ih chars.2]
      rfl

theorem wordLength_eq_some {n : Nat} (measured : wordLength '\x00' text = some n) :
    (∀ c ∈ text.take n, isLiteral c = true) ∧ StopsWord (text.drop n) ∧ n ≤ text.length := by
  induction text generalizing n with
  | nil =>
      cases measured
      exact ⟨by simp, .inl rfl, Nat.le_refl _⟩
  | cons c rest ih =>
      by_cases literal : isLiteral c = true
      · rw [wordLength_cons literal] at measured
        obtain ⟨more, restMeasured, rfl⟩ := Option.map_eq_some_iff.mp measured
        obtain ⟨chars, stops, short⟩ := ih restMeasured
        refine ⟨?_, stops, by simpa using short⟩
        rw [List.take_succ_cons, List.forall_mem_cons]
        exact ⟨literal, chars⟩
      · have zero : n = 0 ∧ StopsWord (c :: rest) := by
          simp only [isLiteral, Bool.not_eq_true', Bool.not_eq_false, Bool.or_eq_true, beq_iff_eq] at literal
          rw [stopsWord_cons]
          simp only [isOperatorStart, isBlank, Bool.or_eq_true, beq_iff_eq] at literal
          rcases literal with
            ((((((((rfl | rfl) | rfl) | rfl) | rfl) | rfl) | rfl) | rfl) | ((((rfl | rfl) | rfl) | rfl) | rfl)) |
              (rfl | rfl) <;>
            simp_all [wordLength, isOperatorStart, isBlank]
        obtain ⟨rfl, stops⟩ := zero
        exact ⟨by simp, stops, Nat.zero_le _⟩

theorem nameLength_stops (inBraces first : Bool) (stops : StopsWord tail) : nameLength inBraces first tail = 0 := by
  cases tail with
  | nil => rfl
  | cons c rest =>
      rw [stopsWord_cons] at stops
      simp only [List.mem_cons, List.not_mem_nil, or_false] at stops
      rcases stops with rfl | rfl | rfl | rfl | rfl | rfl | rfl | rfl | rfl | rfl <;> rfl

theorem nameLength_word (inBraces first : Bool) (w : Str) (stops : StopsWord tail) :
    nameLength inBraces first (w ++ tail) = nameLength inBraces first w := by
  induction w generalizing first with
  | nil => exact nameLength_stops inBraces first stops
  | cons c w ih => simp only [List.cons_append, nameLength, ih]

/-! ## Reading the word -/

section

variable (self : Productions) (fuel : Nat)

theorem wordLoop_literal {c : Char} (builder : WordBuilder) (buf : parser.buf = c :: rest)
    (literal : isLiteral c = true) :
    wordLoop self '\x00' (fuel + 1) builder parser =
      wordLoop self '\x00' fuel ((builder.startAt parser.pos).appendChar c)
        (parser.moved rest (parser.pos.advance c) false) := by
  have peeked : charAt parser.buf 0 = c := by rw [buf]; rfl
  have ne : ∀ d, isLiteral d = false → ¬ (c == d) = true := fun d other => by
    simpa using isLiteral_ne literal other
  obtain ⟨notOperator, notBlank⟩ := isLiteral_plain literal
  have goesOn : ¬ (c == '\x00' || c == '\n' || c == ')' || c == '\x00') = true := by
    simp [ne '\x00' (by decide), ne '\n' (by decide), ne ')' (by decide)]
  have notEnd : ¬ (isOperatorStart c || isBlank c) = true := by simp [notOperator, notBlank]
  rw [wordLoop, getPos, Run.gets_bind,
    Run.bind_of_done (parserPeekChar_of peeked), if_neg goesOn, if_neg (ne _ (by decide)),
    if_neg (ne _ (by decide)), if_neg (ne _ (by decide)), if_neg (ne _ (by decide)),
    if_neg (ne _ (by decide)), if_neg notEnd,
      Run.bind_of_done (parserReadChar_cons buf (isLiteral_ne literal (by decide)))]

end

theorem WordBuilder.startAt_parts (builder : WordBuilder) (pos : Position) :
    (builder.startAt pos).buf = builder.buf ∧ (builder.startAt pos).children = builder.children := by
  unfold WordBuilder.startAt
  split <;> exact ⟨rfl, rfl⟩

theorem WordBuilder.startAt_of_valid {builder : WordBuilder} (valid : builder.childBegin.valid = true)
    (pos : Position) :
    builder.startAt pos = builder := if_pos valid

/-- The characters up to the end of the word make one child, and they are read one after
another. The child starts where the word does, if positions are valid. -/
theorem wordLoop_childReads (self : Productions) (w : Str) (chars : ∀ c ∈ w, isLiteral c = true)
    (stops : StopsWord tail)
    (fuel : Nat) (builder : WordBuilder) (parser : Parser) (childless : builder.children = [])
    (nonempty : builder.buf ++ w ≠ []) (buf : parser.buf = w ++ tail) (enough : w.length ≤ fuel) :
    ∃ begin pos continuationLine,
      wordLoop self '\x00' (fuel + 1) builder parser =
        .done (some (.string (builder.buf ++ w) false false ⟨begin, pos⟩))
          { parser.moved tail pos continuationLine with hasSym := false } ∧
      parserRead w.length parser = .done w (parser.moved tail pos continuationLine) ∧
      ((builder.startAt parser.pos).childBegin.valid = true → begin = (builder.startAt parser.pos).childBegin) := by
  induction w generalizing fuel builder parser with
  | nil =>
      have started := builder.startAt_parts parser.pos
      rw [childless] at started
      rw [List.nil_append] at buf
      rw [List.append_nil] at nonempty ⊢
      have ended := @wordLoop_stops parser self fuel builder (buf ▸ stops)
      have only : ((builder.startAt parser.pos).push parser.pos).word =
          .string builder.buf false false ⟨(builder.startAt parser.pos).childBegin, parser.pos⟩ := by
        rw [WordBuilder.push, started.1, started.2, if_neg (by simpa using nonempty)]
        rfl
      rw [only] at ended
      have stays := parser.moved_self buf
      refine ⟨_, parser.pos, parser.continuationLine, ?_, ?_, fun _ => rfl⟩
      · rw [stays]
        exact ended
      · rw [stays]
        rfl
  | cons c w ih =>
      have started := builder.startAt_parts parser.pos
      rw [childless] at started
      rw [List.forall_mem_cons] at chars
      obtain ⟨fuel, rfl⟩ : ∃ more, fuel = more + 1 := ⟨fuel - 1, by simp at enough; omega⟩
      have step := @wordLoop_literal (w ++ tail) parser self (fuel + 1) c builder buf chars.1
      have first := @parserReadChar_cons (w ++ tail) parser c buf (isLiteral_ne chars.1 (by decide))
      have appended : ((builder.startAt parser.pos).appendChar c).buf = builder.buf ++ [c] := by
        rw [WordBuilder.appendChar, started.1]
      obtain ⟨begin, pos, continuationLine, read, charsRead, begins⟩ := ih chars.2 fuel
        ((builder.startAt parser.pos).appendChar c) (parser.moved (w ++ tail) (parser.pos.advance c) false) started.2
        (by simp [appended]) rfl (by simpa using enough)
      rw [appended, List.append_assoc] at read
      refine ⟨begin, pos, continuationLine, step.trans read, ?_, ?_⟩
      · rw [List.length_cons, parserRead, Run.bind_of_done first, Run.bind_of_done charsRead]
        rfl
      · intro valid
        have keeps : ((builder.startAt parser.pos).appendChar c).childBegin.valid = true := valid
        rw [WordBuilder.startAt_of_valid keeps] at begins
        exact begins valid

/-! ## Tokens -/

theorem LiteralWord.symbolAt (literal : LiteralWord w) : symbolAt (w ++ text) = some .token := by
  obtain ⟨c, rest, rfl⟩ := List.exists_cons_of_ne_nil literal.nonempty
  have isLit := literal.chars c List.mem_cons_self
  obtain ⟨notOperator, notBlank⟩ := isLiteral_plain isLit
  have ne : ∀ d, isLiteral d = false → (c == d) = false := fun d other => beq_false_of_ne (isLiteral_ne isLit other)
  have notComment : (c == '#') = false := by simpa using literal.notComment
  simp [Mrsh.symbolAt, charAt, notOperator, notBlank, notComment, ne _ (show isLiteral '\x00' = false from rfl),
    ne _ (show isLiteral '\n' = false from rfl)]

section

variable (facing : Facing .token (w ++ tail) parser) (literal : LiteralWord w) (stops : StopsWord tail)
include facing literal stops

theorem Facing.peekWord_literal : peekWord '\x00' parser = .done w.length parser := by
  simp [peekWord, facing.symbol, facing.buf, wordLength_literal literal.chars stops]

omit literal in
theorem Facing.peekName_word : peekName false parser = .done (nameLength false true w) parser := by
  simp [peekName, facing.symbol, facing.buf, nameLength_word false true w stops]

theorem Facing.token_word_ne {str : Str} (other : str ≠ w)
    (head : ∀ c, str = [c] → c.isAlpha = false → w.head? ≠ some c) : token str parser = .done none parser := by
  have whole : ∀ begin, token.wholeWord str begin parser = .done none parser := by
    intro begin
    have mismatch : ¬ (str.length == w.length && (w ++ tail).take w.length == str) = true := by
      rw [List.take_left, beq_false_of_ne other.symm, Bool.and_false]
      exact Bool.false_ne_true
    unfold token.wholeWord
    rw [Run.bind_of_done (facing.peekWord_literal literal stops), Run.gets_bind, facing.buf, if_neg mismatch]
    rfl
  unfold token
  simp only [Run.bind_apply, facing.symbol, BEq.rfl, Outcome.andThen_done, if_true, getPos, Run.gets_apply]
  split
  · rename_i c
    cases alpha : c.isAlpha with
    | true => simpa [alpha] using whole parser.pos
    | false =>
        have different := head c rfl alpha
        obtain ⟨first, rest, rfl⟩ := List.exists_cons_of_ne_nil literal.nonempty
        have unequal : first ≠ c := by simpa using different
        simp [parserPeekChar, parserPeekAt, facing.buf, charAt, unequal]
  · exact whole parser.pos

theorem Facing.token_head_ne {c : Char} (head : w.head? ≠ some c) :
    token [c] parser = .done none parser := by
  refine facing.token_word_ne literal stops ?_ fun _ same _ => ?_
  · rintro rfl
    exact head rfl
  · cases same
    exact head

theorem Facing.token_letters_ne {str : Str} (other : str ≠ w) (letters : ∀ c ∈ str, c.isAlpha = true) :
    token str parser = .done none parser := by
  refine facing.token_word_ne literal stops other fun c same notLetter => ?_
  subst same
  rw [letters c List.mem_cons_self] at notLetter
  cases notLetter

end

/-! ## Productions that leave the word alone -/

/-- Whether the symbol has been looked at before or not, the token is the same. -/
theorem token_looks {found : Parser} (symbol : ∀ name, Mrsh.symbol name parser = .done (sym == name) found)
    (facing : Facing sym text found) (str : Str) : token str parser = token str found := by
  unfold token
  rw [Run.bind_of_done (symbol .token), Run.bind_of_done (facing.symbol .token)]

theorem firstCommand_skip {parse : Parse (Option Command)} {before : Parser} (rest : List (Parse (Option Command)))
    (declined : parse before = .done none parser) (noError : parser.error = none) :
    firstCommand (parse :: rest) before = firstCommand rest parser := by
  have passed : mrshParserError parser = .done none parser := by simp [mrshParserError, noError]
  rw [firstCommand, Run.bind_of_done declined]
  exact Run.bind_of_done passed

/-- An alternative of `compound_command` that is not the current one. -/
theorem mapped_none {α : Type} {change : α → Command} {parse : Parse (Option α)} {before : Parser}
    (declined : parse before = .done none parser) :
    (do pure ((← parse).map change) : Parse (Option Command)) before = .done none parser := Run.bind_of_done declined

section

variable (facing : Facing .token (w ++ tail) parser) (literal : LiteralWord w) (stops : StopsWord tail)
include facing literal stops

theorem Facing.unspecifiedWord_false (notReserved : w ∉ reservedWords)
    (noColon : nameLength false true w ≠ 0 → charAt (w ++ tail) (nameLength false true w) ≠ ':') :
    unspecifiedWord parser = .done false parser := by
  have notEmpty : ¬ (w.length == 0) = true := by simpa using literal.nonempty
  unfold unspecifiedWord
  rw [Run.bind_of_done (facing.peekWord_literal literal stops), if_neg notEmpty, Run.gets_bind, facing.buf,
    List.take_left, if_neg notReserved,
    Run.bind_of_done (facing.peekName_word stops), parserPeekAt, Run.gets_bind,
    facing.buf]
  rw [if_neg]
  · rfl
  · simp only [Bool.and_eq_true, bne_iff_ne, beq_iff_eq, not_and]
    exact noColon

omit literal in
theorem Facing.functionDefinition_none
    (noFunction : nameLength false true w ≠ 0 → parenFollows ((w ++ tail).drop (nameLength false true w)) = false)
    (self : Productions) : functionDefinition self parser = .done none parser := by
  have declined : (nameLength false true w == 0 ||
      !parenFollows ((w ++ tail).drop (nameLength false true w))) = true := by
    by_cases isName : nameLength false true w = 0
    · simp [isName]
    · simp [noFunction isName]
  unfold functionDefinition
  rw [Run.bind_of_done (facing.peekName_word stops), Run.gets_bind, facing.buf, if_pos declined]
  rfl

omit literal in
theorem Facing.assignmentWord_none
    (notAssigned : nameLength false true w ≠ 0 → charAt (w ++ tail) (nameLength false true w) ≠ '=')
    (self : Productions) : assignmentWord self parser = .done none parser := by
  have noEqual : (nameLength false true w == 0 || charAt (w ++ tail) (nameLength false true w) != '=') = true := by
    by_cases isName : nameLength false true w = 0
    · simp [isName]
    · simp [notAssigned isName]
  unfold assignmentWord
  rw [Run.bind_of_done (facing.symbol .token), if_pos (by decide), Run.bind_of_done (facing.peekName_word stops),
    parserPeekAt,
    Run.gets_bind, facing.buf, if_pos noEqual]
  rfl

end

section

variable {found : Parser} (symbol : ∀ name, Mrsh.symbol name parser = .done (.token == name) found)
  (facing : Facing .token (w ++ tail) found) (literal : LiteralWord w) (stops : StopsWord tail)
  (notOpening : w ∉ openings) (noError : found.error = none) (self : Productions)
include symbol facing literal stops notOpening noError

theorem Facing.compoundCommand_word (notGroup : w.head? ≠ some '{' ∧ w.head? ≠ some '(') :
    compoundCommand self parser = firstCommand [functionCommand self] found := by
  have opening : ∀ str ∈ openings, token str found = .done none found := by
    intro str isOpening
    refine facing.token_letters_ne literal stops (fun same => notOpening (same ▸ isOpening)) ?_
    revert str
    decide
  have noBrace : token ['{'] parser = .done none found :=
    (token_looks symbol facing _).trans (facing.token_head_ne literal stops notGroup.1)
  have noParen : token ['('] found = .done none found := facing.token_head_ne literal stops notGroup.2
  have noBraceGroup : braceGroup self parser = .done none found := by
    have noGroup : groupOf self ['{'] ['}'] parser = .done none found := Run.bind_of_done noBrace
    exact Run.bind_of_done noGroup
  have noSubshell : subshell self found = .done none found := by
    have noGroup : groupOf self ['('] [')'] found = .done none found := Run.bind_of_done noParen
    exact Run.bind_of_done noGroup
  have noIf : ifClause self found = .done none found := Run.bind_of_done (opening _ (by decide))
  have noFor : forClause self found = .done none found := Run.bind_of_done (opening _ (by decide))
  have noLoop : loopClause self found = .done none found := by
    have noType : loopType found = .done none found := by
      unfold loopType
      rw [Run.bind_of_done (opening _ (by decide))]
      exact Run.bind_of_done (opening _ (by decide))
    exact Run.bind_of_done noType
  have noCase : caseClause self found = .done none found := Run.bind_of_done (opening _ (by decide))
  rw [compoundCommand, firstCommand_skip _ (mapped_none noBraceGroup) noError,
    firstCommand_skip _ (mapped_none noSubshell) noError, firstCommand_skip _ (mapped_none noIf) noError,
    firstCommand_skip _ (mapped_none noFor) noError, firstCommand_skip _ (mapped_none noLoop) noError,
    firstCommand_skip _ (mapped_none noCase) noError]

end

theorem Begins.noColon (begins : Begins w tail) (isName : nameLength false true w ≠ 0) :
    charAt (w ++ tail) (nameLength false true w) ≠ ':' := by
  have other := begins.afterName isName
  simp only [List.mem_cons, List.not_mem_nil, or_false, not_or] at other
  exact other.1

theorem Begins.notAssigned (begins : Begins w tail) (isName : nameLength false true w ≠ 0) :
    charAt (w ++ tail) (nameLength false true w) ≠ '=' := by
  have other := begins.afterName isName
  simp only [List.mem_cons, List.not_mem_nil, or_false, not_or] at other
  exact other.2

section

variable (at_ : At .token (w ++ tail) parser)
include at_

theorem At.unspecifiedWord_begins (begins : Begins w tail) : unspecifiedWord parser = .done false parser :=
  at_.facing.unspecifiedWord_false begins.literal begins.stops begins.notReserved begins.noColon

theorem At.compoundCommand_begins {before : Parser} (begins : Begins w tail) (self : Productions)
    (symbol : ∀ name, Mrsh.symbol name before = .done (.token == name) parser) :
    compoundCommand self before = firstCommand [functionCommand self] parser :=
  at_.facing.compoundCommand_word symbol begins.literal begins.stops begins.notOpening at_.noError self begins.notGroup

theorem At.compoundCommand_names (names : Names w tail) (self : Productions) :
    compoundCommand self parser = .done none parser := by
  have noFunction : functionCommand self parser = .done none parser := by
    unfold functionCommand
    rw [Run.bind_of_done (at_.unspecifiedWord_begins names.toBegins)]
    exact Run.bind_of_done (at_.facing.functionDefinition_none names.stops names.noFunction self)
  rw [at_.compoundCommand_begins names.toBegins self at_.symbol, firstCommand_skip _ noFunction at_.noError]
  rfl

end

/-- No redirection starts with a symbol other than its own operators, or with a token
that is no digit. -/
theorem Facing.ioRedirect_none {before : Parser} (facing : Facing sym text parser)
    (noNumber : ioNumber before = .done none parser)
    (noLess : token ['<'] parser = .done none parser) (noGreat : token ['>'] parser = .done none parser)
    (notRedirect : sym ∉ [SymbolName.lessand, .greatand, .dgreat, .clobber, .lessgreat, .dless, .dlessdash])
    (self : Productions) : ioRedirect self before = .done none parser := by
  simp only [List.mem_cons, List.not_mem_nil, or_false, not_or] at notRedirect
  obtain ⟨lessand, greatand, dgreat, clobber, lessgreat, dless, dlessdash⟩ := notRedirect
  have noOp : ioRedirectOp parser = .done none parser := by
    unfold ioRedirectOp
    simp [firstOp, noLess, noGreat, facing.operator_ne _ lessand, facing.operator_ne _ greatand,
      facing.operator_ne _ dgreat, facing.operator_ne _ clobber, facing.operator_ne _ lessgreat]
  have noHereOp : ioHereOp parser = .done none parser := by
    simp [ioHereOp, facing.operator_ne _ dless, facing.operator_ne _ dlessdash]
  have noFile : ioFile self parser = .done none parser := Run.bind_of_done noOp
  have noHere : ioHere self parser = .done none parser := Run.bind_of_done noHereOp
  unfold ioRedirect
  rw [getPos, Run.gets_bind, Run.bind_of_done noNumber, Run.bind_of_done noFile]
  exact Run.bind_of_done noHere

section

variable (facing : Facing .token (w ++ tail) parser) (literal : LiteralWord w) (stops : StopsWord tail)
  (notNumber : ∀ c, w = [c] → c.isDigit = true → charAt tail 0 ∉ ['<', '>'])
include facing literal notNumber

omit literal in
theorem Facing.ioNumber_none (chars : ∀ c ∈ w, isLiteral c = true) (nonempty : w ≠ []) :
    ioNumber parser = .done none parser := by
  have declined :
    ¬ ((charAt (w ++ tail) 0).isDigit && (charAt (w ++ tail) 1 == '<' || charAt (w ++ tail) 1 == '>')) = true := by
    obtain ⟨first, rest, rfl⟩ := List.exists_cons_of_ne_nil nonempty
    cases isDigit : first.isDigit with
    | false => simp [charAt, isDigit]
    | true =>
        have next : charAt (first :: rest ++ tail) 1 ∉ ['<', '>'] := by
          cases rest with
          | nil => exact notNumber first rfl isDigit
          | cons second rest =>
              have isLit := chars second (by simp)
              simp [charAt, isLiteral_ne isLit (show isLiteral '<' = false from rfl),
                isLiteral_ne isLit (show isLiteral '>' = false from rfl)]
        simp only [List.mem_cons, List.not_mem_nil, or_false, not_or] at next
        simp only [beq_false_of_ne next.1, beq_false_of_ne next.2, Bool.or_self, Bool.and_false, Bool.false_eq_true,
          not_false_eq_true]
  unfold ioNumber
  rw [Run.bind_of_done (facing.symbol .token), if_pos (by decide), parserPeekChar, parserPeekAt, Run.gets_bind,
    parserPeekAt, Run.gets_bind, facing.buf, if_neg declined]
  rfl

include stops

theorem Facing.ioRedirect_literal (self : Productions) : ioRedirect self parser = .done none parser := by
  have noToken : ∀ c, isLiteral c = false → token [c] parser = .done none parser := by
    intro c notLiteral
    refine facing.token_head_ne literal stops fun head => ?_
    have member := List.mem_of_mem_head? head
    rw [literal.chars c member] at notLiteral
    cases notLiteral
  exact facing.ioRedirect_none (facing.ioNumber_none notNumber literal.chars literal.nonempty) (noToken _ (by decide))
    (noToken _ (by decide)) (by decide) self

end

theorem At.cmdPrefix_names (at_ : At .token (w ++ tail) parser) (names : Names w tail)
    (notRedirect : charAt tail 0 ∉ ['<', '>']) (self : Productions) (cmd : SimpleCommand) :
    cmdPrefix self cmd parser = .done none parser := by
  unfold cmdPrefix
  rw [Run.bind_of_done (at_.facing.ioRedirect_literal names.literal names.stops (fun _ _ _ => notRedirect) self)]
  exact Run.bind_of_done (at_.facing.assignmentWord_none names.stops names.notAssigned self)

section

variable (literal : LiteralWord w) (stops : StopsWord tail) (self : Productions)
include literal stops

theorem Facing.cmdName_word (facing : Facing .token (w ++ tail) parser)
    (noAliases : applyAliases self parser = .done () parser) (notKeyword : w ∉ keywords) :
    ∃ pos continuationLine, cmdName self parser = .done (some (.string w false false ⟨parser.pos, pos⟩))
      { parser.moved tail pos continuationLine with hasSym := false } := by
  obtain ⟨pos, continuationLine, read⟩ := parserRead_append parser w
    (fun c member => isLiteral_ne (literal.chars c member) (by decide)) facing.buf
  refine ⟨pos, continuationLine, ?_⟩
  have notEmpty : ¬ (w.length == 0) = true := by simpa using literal.nonempty
  have readWord : readToken w.length parser =
      .done (some (w, ⟨parser.pos, pos⟩)) { parser.moved tail pos continuationLine with hasSym := false } := by
    simp [readToken, facing.symbol, getPos, read, consumeSymbol, Parser.moved]
  unfold cmdName
  rw [Run.bind_of_done noAliases, Run.bind_of_done (facing.peekWord_literal literal stops), if_neg notEmpty,
    Run.gets_bind, facing.buf, List.take_left, if_neg notKeyword,
    Run.bind_of_done readWord]
  rfl

end

theorem At.cmdName_names (at_ : At .token (w ++ tail) parser) (names : Names w tail) (notKeyword : w ∉ keywords)
    (self : Productions) :
    ∃ range after, cmdName self parser = .done (some (.string w false false range)) after ∧ Ready tail after := by
  have noAliases : applyAliases self parser = .done () parser := by simp [applyAliases, at_.noAlias]
  obtain ⟨_, _, read⟩ := at_.facing.cmdName_word names.literal names.stops self noAliases notKeyword
  exact ⟨_, _, read, rfl, (by intro pending; cases pending), at_.noError, at_.noAlias⟩

end Mrsh
