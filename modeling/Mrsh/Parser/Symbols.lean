import Mrsh.Parser.Program

namespace Mrsh

open Mrsh.Data

/-! # Reading the next symbol

What the functions of `Parser/State.lean` do when it is known which symbol the
text starts with. A symbol that was found before is kept until it is consumed.
-/

/-- The symbol that the text starts with, where nothing has to be skipped before it. -/
def symbolAt (text : Str) : Option SymbolName :=
  let c := charAt text 0
  if c == '\x00' then some .eofToken
  else if c == '\n' then some .newline
  else
    match if isOperatorStart c then operatorAt text else none with
    | some name => some name
    | none => if isBlank c || c == '#' then none else some .token

/-- A parser without errors and aliases before the given text. -/
structure Ready (text : Str) (parser : Parser) : Prop where
  buf : parser.buf = text
  settled : parser.hasSym = true → symbolAt text = some parser.sym
  noError : parser.error = none
  noAlias : parser.aliasFunc = none

/-- A parser that has found the symbol which its text starts with. -/
structure At (sym : SymbolName) (text : Str) (parser : Parser) : Prop where
  buf : parser.buf = text
  hasSym : parser.hasSym = true
  found : parser.sym = sym
  noError : parser.error = none
  noAlias : parser.aliasFunc = none

/-- What the tokens depend on: the text, with the symbol that it starts with. -/
structure Facing (sym : SymbolName) (text : Str) (parser : Parser) : Prop where
  buf : parser.buf = text
  hasSym : parser.hasSym = true
  found : parser.sym = sym

theorem operatorAt_prefix {text : Str} {name : SymbolName} (found : operatorAt text = some name) :
    ∃ str, (name, str) ∈ operators ∧ str <+: text := by
  obtain ⟨⟨other, str⟩, search, rfl⟩ := Option.map_eq_some_iff.mp found
  have isPrefix : str.isPrefixOf text = true :=
    List.find?_some (p := fun operator : SymbolName × Str => operator.2.isPrefixOf text) search
  exact ⟨str, List.mem_of_find?_eq_some search, List.isPrefixOf_iff_prefix.mp isPrefix⟩

theorem ready_mrshParserWithData (text : Str) : Ready text (mrshParserWithData text) where
  buf := rfl
  settled := by intro pending; cases pending
  noError := rfl
  noAlias := rfl

variable {text rest : Str} {sym : SymbolName} {parser : Parser}

theorem At.ready (at_ : At sym text parser) (starts : symbolAt text = some sym) : Ready text parser where
  buf := at_.buf
  settled _ := by rw [starts, at_.found]
  noError := at_.noError
  noAlias := at_.noAlias

theorem At.facing (at_ : At sym text parser) : Facing sym text parser := ⟨at_.buf, at_.hasSym, at_.found⟩

theorem Facing.symbol (facing : Facing sym text parser) (name : SymbolName) :
    symbol name parser = .done (sym == name) parser := by
  simp [Mrsh.symbol, getSymbol, facing.hasSym, facing.found]

theorem At.symbol (at_ : At sym text parser) (name : SymbolName) :
    symbol name parser = .done (sym == name) parser := at_.facing.symbol name

theorem parserSetError_error {msg : Str} {after : Parser} (ended : parserSetError msg parser = .done () after) :
    after.error ≠ none := by
  cases failed : parser.error with
  | none =>
      simp only [parserSetError, Run.modify_apply, failed, Outcome.done.injEq, true_and] at ended
      rw [← ended]
      exact Option.some_ne_none _
  | some error =>
      simp only [parserSetError, Run.modify_apply, failed, Outcome.done.injEq, true_and] at ended
      rw [← ended, failed]
      exact Option.some_ne_none _

theorem nextSymbolWithin_of_symbolAt (parser : Parser) (fuel : Nat) (starts : symbolAt parser.buf = some sym) :
    nextSymbolWithin (fuel + 1) parser = .done () { parser with hasSym := true, sym } := by
  unfold symbolAt at starts
  simp only [nextSymbolWithin, parserPeekChar, parserPeekAt, setSymbol, Run.bind_apply,
    Run.modify_apply, Run.gets_apply, Outcome.andThen_done, Run.ite_apply]
  by_cases ends : charAt parser.buf 0 == '\x00'
  · simp_all
  · by_cases newline : charAt parser.buf 0 == '\n'
    · simp_all
    · simp only [ends, newline, Bool.false_eq_true, if_false] at starts ⊢
      cases operator : (if isOperatorStart (charAt parser.buf 0) then operatorAt parser.buf else none) with
      | some name =>
          rw [operator] at starts
          cases starts
          simp
      | none =>
          rw [operator] at starts
          by_cases blank : isBlank (charAt parser.buf 0)
          · simp [blank] at starts
          · by_cases comment : charAt parser.buf 0 == '#'
            · simp [comment] at starts
            · simp only [blank, comment, Bool.or_self, Bool.false_eq_true, if_false,
                Option.some.injEq] at starts
              simp [blank, comment, starts]

theorem Ready.symbol (ready : Ready text parser) (starts : symbolAt text = some sym) :
    ∃ after, At sym text after ∧ ∀ name, Mrsh.symbol name parser = .done (sym == name) after := by
  cases pending : parser.hasSym with
  | true =>
      have found : parser.sym = sym := by
        have settled := ready.settled pending
        rw [starts, Option.some.injEq] at settled
        exact settled.symm
      have at_ : At sym text parser := ⟨ready.buf, pending, found, ready.noError, ready.noAlias⟩
      exact ⟨parser, at_, at_.symbol⟩
  | false =>
      refine ⟨{ parser with hasSym := true, sym }, ⟨ready.buf, rfl, rfl, ready.noError, ready.noAlias⟩, ?_⟩
      intro name
      have next := nextSymbolWithin_of_symbolAt parser parser.buf.length
        (by rw [ready.buf]; exact starts)
      simp [Mrsh.symbol, getSymbol, pending, nextSymbol, bufferFuel, next]

/-! ## Blanks and newlines -/

/-- The parser after it has read up to the given text. -/
def Parser.moved (parser : Parser) (rest : Str) (pos : Position) (continuationLine : Bool) : Parser :=
  { parser with buf := rest, pos, continuationLine }

theorem Parser.moved_self (parser : Parser) (buf : parser.buf = text) :
    parser.moved text parser.pos parser.continuationLine = parser := by
  subst buf
  rfl

theorem parserReadChar_cons {c : Char} (buf : parser.buf = c :: rest) (visible : c ≠ '\x00') :
    parserReadChar parser = .done c (parser.moved rest (parser.pos.advance c) false) := by
  simp [parserReadChar, buf, visible, Parser.moved]

theorem parserReadChar_moved {parser after : Parser} {c : Char} (ended : parserReadChar parser = .done c after) :
    ∃ rest pos, parser.buf = c :: rest ∧ after = parser.moved rest pos false := by
  cases buf : parser.buf with
  | nil => simp [parserReadChar, buf] at ended
  | cons d rest =>
      by_cases nul : d = '\x00'
      · simp [parserReadChar, buf, nul] at ended
      · rw [parserReadChar_cons buf nul] at ended
        cases ended
        exact ⟨rest, _, rfl, rfl⟩

theorem parserReadChar_buf {parser after : Parser} {c : Char} (ended : parserReadChar parser = .done c after) :
    parser.buf = c :: after.buf := by
  obtain ⟨rest, pos, buf, rfl⟩ := parserReadChar_moved ended
  exact buf

theorem parserRead_buf {parser after : Parser} {size : Nat} {str : Str}
    (ended : parserRead size parser = .done str after) :
    parser.buf = str ++ after.buf ∧ str.length = size := by
  induction size generalizing parser str with
  | zero =>
      cases ended
      exact ⟨rfl, rfl⟩
  | succ size ih =>
      obtain ⟨c, between, first, ended⟩ := Run.bind_done.mp ended
      obtain ⟨rest, _, read, ended⟩ := Run.bind_done.mp ended
      cases ended
      obtain ⟨buf, length⟩ := ih read
      exact ⟨by rw [parserReadChar_buf first, buf]; rfl, by rw [List.length_cons, length]⟩

theorem parserRead_append (parser : Parser) (str : Str) (visible : ∀ c ∈ str, c ≠ '\x00')
    (buf : parser.buf = str ++ rest) :
    ∃ pos continuationLine,
      parserRead str.length parser = .done str (parser.moved rest pos continuationLine) := by
  induction str generalizing parser with
  | nil =>
      refine ⟨parser.pos, parser.continuationLine, ?_⟩
      exact congrArg _ (parser.moved_self buf).symm
  | cons c str ih =>
      rw [List.forall_mem_cons] at visible
      have read := parserReadChar_cons buf visible.1
      obtain ⟨pos, continuationLine, readRest⟩ :=
        ih (parser.moved (str ++ rest) (parser.pos.advance c) false) visible.2 rfl
      refine ⟨pos, continuationLine, ?_⟩
      change parserRead str.length _ = .done str (parser.moved rest pos continuationLine) at readRest
      simp only [List.length_cons, parserRead, Run.bind_apply, read, Outcome.andThen_done]
      change (parserRead str.length (parser.moved (str ++ rest) _ _)).andThen _ = _
      simp [readRest]

theorem symbolAt_blank {c : Char} (blank : isBlank c = true) : symbolAt (c :: rest) = none := by
  unfold isBlank at blank
  rw [Bool.or_eq_true, beq_iff_eq, beq_iff_eq] at blank
  rcases blank with rfl | rfl <;> rfl

theorem isBlank_visible {c : Char} (blank : isBlank c = true) : c ≠ '\x00' := by
  rintro rfl
  cases blank

theorem nextSymbolWithin_blanks (parser : Parser) (blanks : Str)
    (blank : ∀ c ∈ blanks, isBlank c = true) (fuel : Nat) (buf : parser.buf = blanks ++ text)
    (starts : symbolAt text = some sym) (enough : blanks.length ≤ fuel) :
    ∃ pos continuationLine, nextSymbolWithin (fuel + 1) parser =
      .done () { parser.moved text pos continuationLine with hasSym := true, sym } := by
  induction blanks generalizing fuel parser with
  | nil =>
      rw [List.nil_append] at buf
      refine ⟨parser.pos, parser.continuationLine, ?_⟩
      rw [nextSymbolWithin_of_symbolAt parser fuel (by rw [buf]; exact starts), parser.moved_self buf]
  | cons c blanks ih =>
      rw [List.forall_mem_cons] at blank
      obtain ⟨fuel, rfl⟩ : ∃ more, fuel = more + 1 := ⟨fuel - 1, by simp at enough; omega⟩
      let noted : Parser := { parser with hasSym := true }
      have read : parserReadChar noted = _ := parserReadChar_cons buf (isBlank_visible blank.1)
      obtain ⟨pos, continuationLine, skipped⟩ :=
        ih (noted.moved (blanks ++ text) (noted.pos.advance c) false) blank.2 fuel rfl
          (by simpa using enough)
      have first : c = ' ' ∨ c = '\t' := by simpa [isBlank] using blank.1
      have peeked : charAt noted.buf 0 = c := by rw [show noted.buf = _ from buf]; rfl
      refine ⟨pos, continuationLine, ?_⟩
      calc nextSymbolWithin (fuel + 1 + 1) parser
          = nextSymbolWithin (fuel + 1) (noted.moved (blanks ++ text) (noted.pos.advance c) false) := by
            rw [nextSymbolWithin, Run.bind_apply, Run.modify_apply, Outcome.andThen_done]
            change (parserPeekChar >>= _) noted = _
            rcases first with rfl | rfl <;>
              simp [parserPeekChar, parserPeekAt, peeked, isOperatorStart, isBlank, read]
        _ = _ := skipped

theorem Ready.symbol_blanks {blanks : Str} (ready : Ready (blanks ++ text) parser)
    (blank : ∀ c ∈ blanks, isBlank c = true) (starts : symbolAt text = some sym) :
    ∃ after, At sym text after ∧ ∀ name, Mrsh.symbol name parser = .done (sym == name) after := by
  cases blanks with
  | nil => exact ready.symbol starts
  | cons c blanks =>
      have idle : parser.hasSym = false := by
        cases pending : parser.hasSym with
        | false => rfl
        | true =>
            have settled := ready.settled pending
            rw [List.cons_append, symbolAt_blank (blank c (by simp))] at settled
            cases settled
      obtain ⟨pos, continuationLine, skipped⟩ := nextSymbolWithin_blanks parser (c :: blanks)
        blank parser.buf.length ready.buf starts (by rw [ready.buf]; simp)
      refine ⟨{ parser.moved text pos continuationLine with hasSym := true, sym },
        ⟨rfl, rfl, rfl, ready.noError, ready.noAlias⟩, ?_⟩
      intro name
      simp [Mrsh.symbol, getSymbol, idle, nextSymbol, bufferFuel, skipped]

/-- Text that `linebreak` reads. -/
def LinebreakText (gap : Str) : Prop :=
  ∀ text sym parser, Ready (gap ++ text) parser → symbolAt text = some sym → sym ≠ .newline →
    ∀ fuel, gap.length ≤ fuel →
      ∃ after, linebreakWithin (fuel + 1) parser = .done () after ∧ Ready text after

theorem linebreakText_blanks {blanks : Str} (blank : ∀ c ∈ blanks, isBlank c = true) :
    LinebreakText blanks := by
  intro text sym parser ready starts notNewline fuel _
  obtain ⟨after, at_, symbol⟩ := ready.symbol_blanks blank starts
  refine ⟨after, ?_, at_.ready starts⟩
  simp [linebreakWithin, newline, symbol, notNewline]

theorem linebreakText_newline {blanks gap : Str} (blank : ∀ c ∈ blanks, isBlank c = true)
    (gapText : LinebreakText gap) : LinebreakText (blanks ++ '\n' :: gap) := by
  intro text sym parser ready starts notNewline fuel enough
  rw [List.append_assoc] at ready
  have newlineStarts : symbolAt ('\n' :: gap ++ text) = some .newline := rfl
  obtain ⟨found, at_, symbol⟩ := ready.symbol_blanks blank newlineStarts
  have read := parserReadChar_cons at_.buf (by decide)
  obtain ⟨fuel, rfl⟩ : ∃ more, fuel = more + 1 := ⟨fuel - 1, by simp at enough; omega⟩
  obtain ⟨after, broken, afterReady⟩ := gapText text sym
    { found.moved (gap ++ text) (found.pos.advance '\n') false with hasSym := false }
    ⟨rfl, (by intro pending; cases pending), at_.noError, at_.noAlias⟩ starts notNewline fuel
    (by simp at enough; omega)
  refine ⟨after, ?_, afterReady⟩
  rw [linebreakWithin]
  simp [newline, symbol, read, assert, consumeSymbol, broken]

theorem LinebreakText.linebreak {gap : Str} (gapText : LinebreakText gap)
    (ready : Ready (gap ++ text) parser) (starts : symbolAt text = some sym) (notNewline : sym ≠ .newline) :
    ∃ after, Mrsh.linebreak parser = .done () after ∧ Ready text after := by
  obtain ⟨after, broken, afterReady⟩ := gapText text sym parser ready starts notNewline
    parser.buf.length
    (by rw [ready.buf]; simp)
  exact ⟨after, by simp [Mrsh.linebreak, bufferFuel, broken], afterReady⟩

/-! ## Operators -/

theorem Facing.operator_ne (facing : Facing sym text parser) (name : SymbolName) (different : sym ≠ name) :
    operator name parser = .done none parser := by
  simp [operator, facing.symbol, different]

theorem At.operator_ne (at_ : At sym text parser) (name : SymbolName) (different : sym ≠ name) :
    operator name parser = .done none parser := at_.facing.operator_ne name different

theorem At.operator {str : Str} (at_ : At sym (str ++ text) parser) (written : operatorStr sym = some str)
    (visible : ∀ c ∈ str, c ≠ '\x00') :
    ∃ range after, Mrsh.operator sym parser = .done (some range) after ∧ Ready text after := by
  obtain ⟨pos, continuationLine, read⟩ := parserRead_append parser str visible at_.buf
  refine ⟨⟨parser.pos, pos⟩, { parser.moved text pos continuationLine with hasSym := false }, ?_,
    ⟨rfl, (by intro pending; cases pending), at_.noError, at_.noAlias⟩⟩
  simp [Mrsh.operator, at_.symbol, getPos, written, read, assert, consumeSymbol, Parser.moved]

end Mrsh
