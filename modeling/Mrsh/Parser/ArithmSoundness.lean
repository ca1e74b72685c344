import Mrsh.Parser.Aliases
import Mrsh.Parser.ArithmFootprint
import Mrsh.Parser.ArithmReading

namespace Mrsh

open Mrsh.Data

/-! # What the arithmetic parser accepts

Without an error, what the parser reads is a text of the grammar. An error is never
taken back, so that no function before it has reported one.
-/

/-! ## What is read -/

variable {parser between after : Parser} {result : Option ArithmExpr}

theorem parseChar_true {c : Char} (ended : parseChar c parser = .done true after) : parser.buf = c :: after.buf := by
  obtain ⟨next, between, peeked, ended⟩ := Run.bind_done.mp ended
  cases peeked
  by_cases same : charAt parser.buf 0 = c
  · rw [if_pos (by simpa using same)] at ended
    obtain ⟨read, _, first, ended⟩ := Run.bind_done.mp ended
    cases ended
    have buf := parserReadChar_buf first
    rw [buf] at same ⊢
    rw [show read = c from same]
  · rw [if_neg (by simpa using same)] at ended
    cases ended

theorem consumeWhitespaceWithin_buf {fuel : Nat} (ended : consumeWhitespaceWithin fuel parser = .done () after) :
    ∃ gap, IsGap gap ∧ parser.buf = gap ++ after.buf := by
  induction fuel generalizing parser with
  | zero => cases ended
  | succ fuel ih =>
      obtain ⟨c, between, peeked, ended⟩ := Run.bind_done.mp ended
      cases peeked
      rw [Run.ite_apply] at ended
      split at ended
      · rename_i space
        obtain ⟨d, between, read, ended⟩ := Run.bind_done.mp ended
        obtain ⟨gap, isGap, buf⟩ := ih ended
        have first := parserReadChar_buf read
        change isSpace (charAt parser.buf 0) = true at space
        rw [first] at space
        refine ⟨d :: gap, ?_, by rw [first, buf]; rfl⟩
        intro e member
        rcases List.mem_cons.mp member with rfl | inGap
        · exact space
        · exact isGap e inGap
      · cases ended
        exact ⟨[], isGap_nil, rfl⟩

theorem consumeWhitespace_buf (ended : consumeWhitespace parser = .done () after) :
    ∃ gap, IsGap gap ∧ parser.buf = gap ++ after.buf := by
  obtain ⟨fuel, between, fuelled, ended⟩ := Run.bind_done.mp ended
  cases fuelled
  exact consumeWhitespaceWithin_buf ended

theorem consumeWhitespaceWithin_fresh {fuel : Nat} (fresh : parser.hasSym = false)
    (ended : consumeWhitespaceWithin fuel parser = .done () after) : after.hasSym = false := by
  induction fuel generalizing parser with
  | zero => cases ended
  | succ fuel ih =>
      obtain ⟨c, between, peeked, ended⟩ := Run.bind_done.mp ended
      cases peeked
      rw [Run.ite_apply] at ended
      split at ended
      · obtain ⟨d, between, read, ended⟩ := Run.bind_done.mp ended
        obtain ⟨rest, pos, -, rfl⟩ := parserReadChar_moved read
        exact @ih (parser.moved rest pos false) fresh ended
      · cases ended
        exact fresh

theorem consumeWhitespace_fresh (fresh : parser.hasSym = false) (ended : consumeWhitespace parser = .done () after) :
    after.hasSym = false := by
  obtain ⟨fuel, between, fuelled, ended⟩ := Run.bind_done.mp ended
  cases fuelled
  exact consumeWhitespaceWithin_fresh fresh ended

theorem no_error {α : Type} {msg : Str} {value found : α} (noError : after.error = none) :
    (parserSetError msg >>= fun _ => pure value) parser ≠ .done found after := by
  intro ended
  obtain ⟨_, _, failed, ended⟩ := Run.bind_done.mp ended
  cases ended
  exact parserSetError_error failed noError

theorem expectChar_true {c : Char} {found : Bool} (ended : expectChar c parser = .done found after)
    (noError : after.error = none) : found = true ∧ parser.buf = c :: after.buf := by
  obtain ⟨present, between, parsed, ended⟩ := Run.bind_done.mp ended
  cases present with
  | false => exact absurd ended (no_error noError)
  | true =>
      cases ended
      exact ⟨rfl, parseChar_true parsed⟩

/-- The first alternative has succeeded, or the others are tried where it has stopped. -/
theorem firstExpr_done {parse : Parse (Option ArithmExpr)} {parses : List (Parse (Option ArithmExpr))}
    (ended : firstExpr (parse :: parses) parser = .done result after) :
    (∃ expr, result = some expr ∧ parse parser = .done (some expr) after) ∨
      ∃ between, parse parser = .done none between ∧ firstExpr parses between = .done result after := by
  obtain ⟨first, between, read, ended⟩ := Run.bind_done.mp ended
  cases first with
  | some expr =>
      cases ended
      exact .inl ⟨expr, rfl, read⟩
  | none => exact .inr ⟨between, read, ended⟩

/-! ## Terms -/

/-- What a function for a part of an expression reads, without an error. -/
def IsPart (part : ExprPart) (parser : Parser) (result : Option ArithmExpr) (after : Parser) : Prop :=
  match result with
  | none => ∃ pairs, EmptyPairs pairs ∧ parser.buf = lexemesText pairs ++ after.buf
  | some expr =>
      ∃ isOpen lexemes, Phrase false part isOpen lexemes expr ∧ parser.buf = lexemesText lexemes ++ after.buf ∧
      (isOpen = true → StopsAll after.buf)

/-- What is read is a part of an expression, if the parser is at a token and reports no error. -/
def IsSound (part : ExprPart) (parse : Parse (Option ArithmExpr)) : Prop :=
  ∀ parser result after, AtToken parser → parse parser = .done result after → after.error = none →
    IsPart part parser result after

/-- A term, with any whitespace after it. -/
def IsTerm (parser : Parser) (result : Option ArithmExpr) (after : Parser) : Prop :=
  match result with
  | none => ∃ pairs, EmptyPairs pairs ∧ parser.buf = lexemesText pairs ++ after.buf
  | some expr => ∃ isOpen text, parser.buf = text ++ after.buf ∧ (isOpen = true → StopsAll after.buf) ∧
      ∀ gap, IsGap gap → (isOpen = true → gap = []) →
        ∃ lexemes, Phrase false (.level 0) isOpen lexemes expr ∧ lexemesText lexemes = text ++ gap

theorem arithmLiteral_sound (ended : arithmLiteral parser = .done result after) (noError : after.error = none) :
    (result = none ∧ after = parser) ∨
      ∃ digits value, result = some (.literal value) ∧ digits ≠ [] ∧ (∀ c ∈ digits, c.isDigit = true) ∧
        strtol 0 digits = ⟨value, [], false⟩ ∧ parser.buf = digits ++ after.buf := by
  obtain ⟨buf, between, got, ended⟩ := Run.bind_done.mp ended
  cases got
  rw [Run.ite_apply] at ended
  split at ended
  · cases ended
    exact .inl ⟨rfl, rfl⟩
  · rename_i nonempty
    obtain ⟨digits, between, read, ended⟩ := Run.bind_done.mp ended
    obtain ⟨buf, length⟩ := parserRead_buf read
    rw [Run.ite_apply] at ended
    split at ended
    · exact absurd ended (no_error noError)
    · rename_i scanned
      cases ended
      have digitsAre : digits = parser.buf.takeWhile Char.isDigit := by
        rw [List.prefix_iff_eq_take.mp (List.takeWhile_prefix Char.isDigit (l := parser.buf)), ← length, buf,
          List.take_left]
      refine .inr ⟨digits, _, rfl, ?_, ?_, ?_, buf⟩
      · rintro rfl
        rw [← length] at nonempty
        exact nonempty rfl
      · intro c member
        rw [digitsAre] at member
        exact List.all_eq_true.mp List.all_takeWhile c member
      · simp only [Bool.or_eq_true, Bool.not_eq_true', not_or, Bool.not_eq_false, Bool.not_eq_true,
          List.isEmpty_iff] at scanned
        rw [← scanned.1, ← scanned.2]

theorem nameLength_take (inBraces first : Bool) (text : Str) :
    nameLength inBraces first (text.take (nameLength inBraces first text)) = nameLength inBraces first text := by
  induction text generalizing first with
  | nil => rfl
  | cons c rest ih =>
      by_cases other : (c != '_' && !c.isAlphanum) = true
      · simp [nameLength, other]
      · by_cases digit : (first && c.isDigit && !inBraces) = true
        · simp [nameLength, other, digit]
        · have split : nameLength inBraces first (c :: rest) = nameLength inBraces false rest + 1 := by
            rw [nameLength, if_neg other, if_neg digit]
          rw [split, List.take_succ_cons, nameLength, if_neg other, if_neg digit, ih]

theorem name_read {str : Str} (some : nameLength false true parser.buf ≠ 0)
    (read : parserRead (nameLength false true parser.buf) parser = .done str after) :
    ArithmExpr.IsWritable.IsName str ∧ parser.buf = str ++ after.buf := by
  obtain ⟨buf, length⟩ := parserRead_buf read
  have taken : str = parser.buf.take (nameLength false true parser.buf) := by
    rw [← length, buf, List.take_left]
  refine ⟨⟨?_, ?_⟩, buf⟩
  · rintro rfl
    exact some length.symm
  · rw [length]
    conv => lhs; rw [taken]
    exact nameLength_take false true parser.buf

theorem arithmVariable_sound (atToken : AtToken parser) (ended : arithmVariable parser = .done result after) :
    (result = none ∧ after = parser) ∨
      ∃ name, result = some (.var name) ∧ ArithmExpr.IsWritable.IsName name ∧ parser.buf = name ++ after.buf := by
  rw [arithmVariable, Run.bind_of_done (atToken.peekName false), Run.ite_apply] at ended
  split at ended
  · cases ended
    exact .inl ⟨rfl, rfl⟩
  · rename_i nonempty
    obtain ⟨name, between, read, ended⟩ := Run.bind_done.mp ended
    cases ended
    obtain ⟨isName, buf⟩ := name_read (by simpa using nonempty) read
    exact .inr ⟨name, rfl, isName, buf⟩

theorem constants_sound (atToken : AtToken parser)
    (ended : firstExpr [arithmLiteral, arithmVariable] parser = .done result after) (noError : after.error = none) :
    (result = none ∧ after = parser) ∨
      ∃ expr text, result = some expr ∧ parser.buf = text ++ after.buf ∧
        ∀ pairs gap, EmptyPairs pairs → IsGap gap →
          Phrase false (.level 0) false (pairs ++ [⟨text, gap⟩]) expr := by
  rcases firstExpr_done ended with ⟨expr, rfl, tryLiteral⟩ | ⟨between, tryLiteral, endedVariable⟩
  · rcases arithmLiteral_sound tryLiteral noError with ⟨absent, -⟩ |
      ⟨digits, value, same, nonempty, digit, scanned, buf⟩
    · cases absent
    · cases same
      exact .inr ⟨_, digits, rfl, buf, fun pairs gap empty space =>
        .literal empty Bool.noConfusion nonempty digit scanned space⟩
  · have atBetween := (arithmLiteral_keeps.done tryLiteral atToken).1
    have variableKeeps : Run.Respects Keeps (firstExpr [arithmVariable]) := by
      apply firstExpr_keeps
      simp [arithmVariable_keeps]
    have noErrorBetween := (variableKeeps.done endedVariable atBetween).2 noError
    rcases arithmLiteral_sound tryLiteral noErrorBetween with ⟨-, rfl⟩ | ⟨_, _, absent, _⟩
    swap
    · cases absent
    rcases firstExpr_done endedVariable with ⟨expr, rfl, tryVariable⟩ | ⟨last, tryVariable, endedLast⟩
    · rcases arithmVariable_sound atToken tryVariable with ⟨absent, -⟩ | ⟨name, same, isName, buf⟩
      · cases absent
      · cases same
        exact .inr ⟨_, name, rfl, buf, fun pairs gap empty space => .var empty Bool.noConfusion isName space⟩
    · cases endedLast
      rcases arithmVariable_sound atToken tryVariable with ⟨-, same⟩ | ⟨_, absent, _⟩
      · exact .inl ⟨rfl, same⟩
      · cases absent

theorem unopType_some {c : Char} {type : ArithmUnopType} (found : unopType c = some type) : c = unopChar type := by
  unfold unopType at found
  split at found
  · rename_i same
    cases found
    exact beq_iff_eq.mp same
  · split at found
    · rename_i same
      cases found
      exact beq_iff_eq.mp same
    · split at found
      · rename_i same
        cases found
        exact beq_iff_eq.mp same
      · split at found
        · rename_i same
          cases found
          exact beq_iff_eq.mp same
        · cases found

section

variable {bound : Nat} {self : Parse (Option ArithmExpr)} (selfSound : IsSound .whole self)
  (selfKeeps : Run.Respects Keeps self) (selfEnds : EndsExpressions self)

include selfSound selfEnds in
theorem unop_sound (atToken : AtToken parser) (ended : unop self parser = .done result after)
    (noError : after.error = none) :
    (result = none ∧ after = parser) ∨
      ∃ type body isOpen lexemes, result = some (.unop type body) ∧ Phrase false .whole isOpen lexemes body ∧
        parser.buf = unopChar type :: (lexemesText lexemes ++ after.buf) ∧ StopsAll after.buf := by
  obtain ⟨c, between, peeked, ended⟩ := Run.bind_done.mp ended
  cases peeked
  cases found : unopType (charAt parser.buf 0) with
  | none =>
      rw [found] at ended
      cases ended
      exact .inl ⟨rfl, rfl⟩
  | some type =>
      rw [found] at ended
      obtain ⟨d, between, read, ended⟩ := Run.bind_done.mp ended
      obtain ⟨body, _, readBody, ended⟩ := Run.bind_done.mp ended
      have first := parserReadChar_buf read
      have atOperand : AtToken between := ((parserReadChar_keeps.done read) atToken).1
      cases body with
      | none => exact absurd ended (no_error noError)
      | some body =>
          cases ended
          obtain ⟨isOpen, lexemes, phrase, buf, -⟩ := selfSound _ _ _ atOperand readBody noError
          refine .inr ⟨type, body, isOpen, lexemes, rfl, phrase, ?_, selfEnds _ _ _ readBody⟩
          rw [first] at found
          rw [first, buf, ← unopType_some found]
          rfl

include selfSound selfKeeps in
theorem paren_sound (atToken : AtToken parser) (ended : paren self parser = .done result after)
    (noError : after.error = none) : IsTerm parser result after := by
  obtain ⟨opened, atGap, opens, ended⟩ := Run.bind_done.mp ended
  have tokenGap : AtToken atGap := ((parseChar_keeps _).done opens atToken).1
  cases opened with
  | false =>
      obtain ⟨same, -⟩ := parseChar_false opens
      cases ended
      rw [same]
      exact ⟨[], .nothing, rfl⟩
  | true =>
      obtain ⟨_, inside, skip, ended⟩ := Run.bind_done.mp ended
      have tokenInside : AtToken inside := (consumeWhitespace_keeps.done skip tokenGap).1
      obtain ⟨expr, atClose, read, ended⟩ := Run.bind_done.mp ended
      have tokenClose : AtToken atClose := (selfKeeps.done read tokenInside).1
      obtain ⟨closed, between, close, ended⟩ := Run.bind_done.mp ended
      have same : between = after ∧ result = if closed then expr else none := by
        cases closed <;> (cases ended; exact ⟨rfl, rfl⟩)
      obtain ⟨rfl, rfl⟩ := same
      obtain ⟨rfl, closeBuf⟩ := expectChar_true close noError
      have noErrorClose : atClose.error = none := ((expectChar_keeps _).done close tokenClose).2 noError
      obtain ⟨gap, space, gapBuf⟩ := consumeWhitespace_buf skip
      have part := selfSound _ _ _ tokenInside read noErrorClose
      have buf : parser.buf = '(' :: (gap ++ inside.buf) := by rw [parseChar_true opens, gapBuf]
      cases expr with
      | none =>
          obtain ⟨pairs, empty, insideBuf⟩ := part
          refine ⟨_, .pair space empty, ?_⟩
          rw [buf, insideBuf, closeBuf]
          simp
      | some expr =>
          obtain ⟨isOpen, lexemes, phrase, insideBuf, -⟩ := part
          refine ⟨false, '(' :: (gap ++ lexemesText lexemes ++ [')']), ?_, Bool.noConfusion, ?_⟩
          · rw [buf, insideBuf, closeBuf]
            simp
          · intro gapAfter spaceAfter _
            refine ⟨_, .paren space spaceAfter phrase, ?_⟩
            simp

include selfSound selfKeeps selfEnds in
theorem alternatives_sound {pairs : List Lexeme} (empty : EmptyPairs pairs) (atToken : AtToken parser)
    (ended : firstExpr [unop self, arithmLiteral, arithmVariable] parser = .done result after)
    (noError : after.error = none) :
    (result = none ∧ after = parser) ∨
      ∃ expr isOpen text, result = some expr ∧ parser.buf = text ++ after.buf ∧ (isOpen = true → StopsAll after.buf) ∧
        ∀ gap, IsGap gap → (isOpen = true → gap = []) →
          ∃ lexemes, Phrase false (.level 0) isOpen lexemes expr ∧
            lexemesText lexemes = lexemesText pairs ++ text ++ gap := by
  rcases firstExpr_done ended with ⟨expr, rfl, tryUnop⟩ | ⟨between, tryUnop, endedConstants⟩
  · rcases unop_sound selfSound selfEnds atToken tryUnop noError with ⟨absent, -⟩ |
      ⟨type, body, isOpen, lexemes, same, phrase, buf, stops⟩
    · cases absent
    · cases same
      refine .inr ⟨_, true, unopChar type :: lexemesText lexemes, rfl, buf, fun _ => stops, fun gap _ closed => ?_⟩
      obtain rfl := closed rfl
      refine ⟨_, .unop type empty Bool.noConfusion phrase, ?_⟩
      simp
  · have atBetween := ((unop_keeps selfKeeps).done tryUnop atToken).1
    have noErrorBetween := (constants_keep.done endedConstants atBetween).2 noError
    rcases unop_sound selfSound selfEnds atToken tryUnop noErrorBetween with ⟨-, rfl⟩ | ⟨_, _, _, _, absent, _⟩
    swap
    · cases absent
    rcases constants_sound atToken endedConstants noError with unread | ⟨expr, text, rfl, buf, phrases⟩
    · exact .inl unread
    · refine .inr ⟨expr, false, text, rfl, buf, Bool.noConfusion, fun gap space _ => ?_⟩
      refine ⟨_, phrases pairs gap empty space, ?_⟩
      simp

include selfSound selfKeeps selfEnds in
theorem arithmTerm_sound (atToken : AtToken parser) (ended : arithmTerm self parser = .done result after)
    (noError : after.error = none) : IsTerm parser result after := by
  rcases firstExpr_done ended with ⟨expr, rfl, tryParen⟩ | ⟨between, tryParen, endedOthers⟩
  · exact paren_sound selfSound selfKeeps atToken tryParen noError
  have atBetween := ((paren_keeps selfKeeps).done tryParen atToken).1
  have noErrorBetween := ((alternatives_keep selfKeeps).done endedOthers atBetween).2 noError
  obtain ⟨pairs, empty, pairsBuf⟩ := paren_sound selfSound selfKeeps atToken tryParen noErrorBetween
  rcases alternatives_sound selfSound selfKeeps selfEnds empty atBetween endedOthers noError with ⟨rfl, rfl⟩ |
    ⟨expr, isOpen, text, rfl, buf, stops, phrases⟩
  · exact ⟨pairs, empty, pairsBuf⟩
  · refine ⟨isOpen, lexemesText pairs ++ text, ?_, stops, phrases⟩
    rw [pairsBuf, buf, List.append_assoc]

/-! ## Levels -/

/-- What a level that is read from the left reads after its first operand. Only the level of factors skips whitespace
before its operators. -/
def IsMore (level : Nat) (left : ArithmExpr) (parser : Parser) (result : Option ArithmExpr) (after : Parser) : Prop :=
  ∃ expr gap restOpen rest, result = some expr ∧ IsGap gap ∧ Phrase false (.more level left) restOpen rest expr ∧
    parser.buf = gap ++ (lexemesText rest ++ after.buf) ∧ (restOpen = true → StopsAll after.buf) ∧
      (level = 1 → gap = []) ∧ (StopsAll parser.buf → gap = [] ∧ rest = [])

theorem gap_stops {gap rest : Str} (space : IsGap gap) (stops : StopsAll (gap ++ rest)) : gap = [] := by
  cases gap with
  | nil => rfl
  | cons c gap =>
      have visible := stops.1.visible (by omega)
      rw [show charAt (c :: gap ++ rest) 0 = c from rfl, space c List.mem_cons_self] at visible
      cases visible

theorem open_stops {isOpen restOpen : Bool} {gap : Str} {rest : List Lexeme}
    (buf : between.buf = gap ++ (lexemesText rest ++ after.buf)) (stops : isOpen = true → StopsAll between.buf)
    (closed : StopsAll between.buf → gap = [] ∧ rest = []) (restStops : restOpen = true → StopsAll after.buf) :
    (isOpen || restOpen) = true → StopsAll after.buf := by
  intro anyOpen
  cases isOpen with
  | false => exact restStops anyOpen
  | true =>
      obtain ⟨rfl, rfl⟩ := closed (stops rfl)
      rw [lexemesText_nil, List.nil_append, List.nil_append] at buf
      rw [← buf]
      exact stops rfl

include selfSound selfKeeps selfEnds in
theorem factorLoop_sound {fuel : Nat} {left : ArithmExpr} (atToken : AtToken parser)
    (ended : factorLoop self fuel left parser = .done result after) (noError : after.error = none) :
    IsMore 0 left parser result after := by
  induction fuel generalizing left parser with
  | zero => cases ended
  | succ fuel ih =>
      obtain ⟨_, skipped, skip, endedOps⟩ := Run.bind_done.mp ended
      have atSkipped := (consumeWhitespace_keeps.done skip atToken).1
      obtain ⟨gap, space, buf⟩ := consumeWhitespace_buf skip
      obtain ⟨chosen, atGap, choose, endedOperand⟩ := Run.bind_done.mp endedOps
      have tokenGap := ((chooseOp_keeps (levelOps 1)).done choose atSkipped).1
      have noGap : StopsAll parser.buf → gap = [] := by
        intro stops
        rw [buf] at stops
        exact gap_stops space stops
      rcases chooseOp_buf 1 choose with ⟨-, rfl, rfl⟩ | ⟨op, found, member, rfl, opBuf⟩
      · cases endedOperand
        exact ⟨left, gap, false, [], rfl, space, .done left, buf, Bool.noConfusion, by omega, fun stops =>
          ⟨noGap stops, rfl⟩⟩
      · obtain ⟨_, atOperand, skipBehind, endedTerm⟩ := Run.bind_done.mp endedOperand
        have tokenOperand := (consumeWhitespace_keeps.done skipBehind tokenGap).1
        obtain ⟨gapBehind, spaceBehind, gapBuf⟩ := consumeWhitespace_buf skipBehind
        obtain ⟨right, atRest, read, endedRest⟩ := Run.bind_done.mp endedTerm
        have tokenRest := ((arithmTerm_keeps selfKeeps).done read tokenOperand).1
        cases right with
        | none => exact absurd endedRest (no_error noError)
        | some right =>
            have noErrorRest := ((factorLoop_keeps selfKeeps _ _).done endedRest tokenRest).2 noError
            obtain ⟨isOpen, text, termBuf, stops, phrases⟩ :=
              arithmTerm_sound selfSound selfKeeps selfEnds tokenOperand read noErrorRest
            obtain ⟨expr, gapAfter, restOpen, rest, rfl, spaceAfter, more, restBuf, restStops, -, closed⟩ :=
              ih tokenRest endedRest
            obtain ⟨lexemes, phrase, split⟩ := phrases gapAfter spaceAfter fun isOpen => (closed (stops isOpen)).1
            refine ⟨expr, gap, isOpen || restOpen, _, rfl, space, .more member spaceBehind phrase more
              (fun isOpen => (closed (stops isOpen)).2), ?_, open_stops restBuf stops closed restStops, by omega, ?_⟩
            · rw [buf, opBuf, gapBuf, termBuf, restBuf, lexemesText_cons, lexemesText_append, split]
              simp
            · intro stopsBefore
              obtain rfl := noGap stopsBefore
              rw [List.nil_append] at buf
              rw [buf] at stopsBefore
              rw [stopsBefore.1.noOperator 1 (by omega) (by omega)] at found
              cases found

include selfSound selfKeeps selfEnds in
theorem factor_sound : IsSound (.level 1) (factor bound self) := by
  intro parser result after atToken ended noError
  obtain ⟨left, between, read, endedRest⟩ := Run.bind_done.mp ended
  have atBetween := ((arithmTerm_keeps selfKeeps).done read atToken).1
  cases left with
  | none =>
      cases endedRest
      exact arithmTerm_sound selfSound selfKeeps selfEnds atToken read noError
  | some left =>
      have noErrorBetween := ((factorLoop_keeps selfKeeps _ _).done endedRest atBetween).2 noError
      obtain ⟨isOpen, text, buf, stops, phrases⟩ :=
        arithmTerm_sound selfSound selfKeeps selfEnds atToken read noErrorBetween
      obtain ⟨expr, gap, restOpen, rest, rfl, space, more, restBuf, restStops, -, closed⟩ :=
        factorLoop_sound selfSound selfKeeps selfEnds atBetween endedRest noError
      obtain ⟨lexemes, phrase, split⟩ := phrases gap space fun isOpen => (closed (stops isOpen)).1
      refine ⟨isOpen || restOpen, _, .chain (by omega) phrase more fun isOpen => (closed (stops isOpen)).2, ?_,
        open_stops restBuf stops closed restStops⟩
      rw [buf, restBuf, lexemesText_append, split]
      simp

include selfSound selfKeeps selfEnds in
theorem addendLoop_sound {fuel : Nat} {left : ArithmExpr} (atToken : AtToken parser)
    (ended : addendLoop bound self fuel left parser = .done result after) (noError : after.error = none) :
    IsMore 1 left parser result after := by
  induction fuel generalizing left parser with
  | zero => cases ended
  | succ fuel ih =>
      obtain ⟨chosen, atGap, choose, endedOperand⟩ := Run.bind_done.mp ended
      have tokenGap := ((chooseOp_keeps (levelOps 2)).done choose atToken).1
      rcases chooseOp_buf 2 choose with ⟨-, rfl, rfl⟩ | ⟨op, found, member, rfl, buf⟩
      · cases endedOperand
        exact ⟨left, [], false, [], rfl, isGap_nil, .done left, rfl, Bool.noConfusion, fun _ => rfl,
          fun _ => ⟨rfl, rfl⟩⟩
      · obtain ⟨_, atOperand, skip, endedFactor⟩ := Run.bind_done.mp endedOperand
        have tokenOperand := (consumeWhitespace_keeps.done skip tokenGap).1
        obtain ⟨gap, space, gapBuf⟩ := consumeWhitespace_buf skip
        obtain ⟨right, atRest, read, endedRest⟩ := Run.bind_done.mp endedFactor
        have tokenRest := ((factor_keeps selfKeeps).done read tokenOperand).1
        cases right with
        | none => exact absurd endedRest (no_error noError)
        | some right =>
            have noErrorRest := ((addendLoop_keeps selfKeeps _ _).done endedRest tokenRest).2 noError
            obtain ⟨isOpen, lexemes, phrase, factorBuf, stops⟩ :=
              factor_sound selfSound selfKeeps selfEnds _ _ _ tokenOperand read noErrorRest
            obtain ⟨expr, gapAfter, restOpen, rest, rfl, -, more, restBuf, restStops, noGap, closed⟩ :=
              ih tokenRest endedRest
            refine ⟨expr, [], isOpen || restOpen, _, rfl, isGap_nil, .more member space phrase more
              (fun isOpen => (closed (stops isOpen)).2), ?_, open_stops restBuf stops closed restStops, fun _ => rfl,
                ?_⟩
            · obtain rfl := noGap rfl
              rw [buf, gapBuf, factorBuf, restBuf]
              simp
            · intro stopsBefore
              rw [stopsBefore.1.noOperator 2 (by omega) (by omega)] at found
              cases found

include selfSound selfKeeps selfEnds in
theorem addend_sound : IsSound (.level 2) (addend bound self) := by
  intro parser result after atToken ended noError
  obtain ⟨left, between, read, endedRest⟩ := Run.bind_done.mp ended
  have atBetween := ((factor_keeps selfKeeps).done read atToken).1
  cases left with
  | none =>
      cases endedRest
      exact factor_sound selfSound selfKeeps selfEnds _ _ _ atToken read noError
  | some left =>
      have noErrorBetween := ((addendLoop_keeps selfKeeps _ _).done endedRest atBetween).2 noError
      obtain ⟨isOpen, lexemes, phrase, buf, stops⟩ :=
        factor_sound selfSound selfKeeps selfEnds _ _ _ atToken read noErrorBetween
      obtain ⟨expr, gap, restOpen, rest, rfl, -, more, restBuf, restStops, noGap, closed⟩ :=
        addendLoop_sound selfSound selfKeeps selfEnds atBetween endedRest noError
      refine ⟨isOpen || restOpen, _, .chain (by omega) phrase more fun isOpen => (closed (stops isOpen)).2, ?_,
        open_stops restBuf stops closed restStops⟩
      obtain rfl := noGap rfl
      rw [buf, restBuf]
      simp

omit selfSound selfKeeps selfEnds in
theorem levelSkip_buf {level : Nat} (ended : levelSkip level parser = .done () after) :
    ∃ gap, IsGap gap ∧ (level = 5 → gap = []) ∧ parser.buf = gap ++ after.buf := by
  rw [levelSkip] at ended
  split at ended
  · cases ended
    exact ⟨[], isGap_nil, fun _ => rfl, rfl⟩
  · rename_i other
    obtain ⟨gap, space, buf⟩ := consumeWhitespace_buf ended
    exact ⟨gap, space, fun same => absurd same other, buf⟩

theorem rightAssociative_sound {operand : Parse (Option ArithmExpr)} {level : Nat} (high : 2 ≤ level)
    (bounded : level < 10) (operandKeeps : Run.Respects Keeps operand) (operandSound : IsSound (.level level) operand)
    (fuel : Nat) :
    IsSound (.level (level + 1))
      (rightAssociative operand (parsers (levelOps (level + 1))) (levelSkip (level + 1)) fuel) := by
  intro parser result after atToken ended noError
  induction fuel generalizing parser result after with
  | zero => cases ended
  | succ fuel ih =>
      obtain ⟨left, atOp, read, endedOps⟩ := Run.bind_done.mp ended
      have tokenOp := (operandKeeps.done read atToken).1
      cases left with
      | none =>
          cases endedOps
          exact operandSound _ _ _ atToken read noError
      | some left =>
          obtain ⟨chosen, atGap, choose, endedSkip⟩ := Run.bind_done.mp endedOps
          obtain ⟨tokenGap, opError⟩ := (chooseOp_keeps (levelOps (level + 1))).done choose tokenOp
          rcases chooseOp_buf _ choose with ⟨-, rfl, rfl⟩ | ⟨op, found, member, rfl, opBuf⟩
          · cases endedSkip
            obtain ⟨isOpen, lexemes, phrase, buf, stops⟩ := operandSound _ _ _ atToken read noError
            exact ⟨isOpen, lexemes, .up high bounded phrase, buf, stops⟩
          · obtain ⟨_, atOperand, skip, endedRight⟩ := Run.bind_done.mp endedSkip
            obtain ⟨tokenOperand, skipError⟩ := (levelSkip_keeps _).done skip tokenGap
            obtain ⟨gap, space, skipped, gapBuf⟩ := levelSkip_buf skip
            obtain ⟨right, atEnd, readRight, endedEnd⟩ := Run.bind_done.mp endedRight
            have rightError := ((rightAssociative_keeps operandKeeps _).done readRight tokenOperand).2
            cases right with
            | none => exact absurd endedEnd (no_error noError)
            | some right =>
                cases endedEnd
                obtain ⟨isOpen, lexemes, phrase, buf, stops⟩ :=
                  operandSound _ _ _ atToken read (opError (skipError (rightError noError)))
                obtain ⟨rightOpen, others, rightPhrase, rightBuf, rightStops⟩ := ih _ _ _ tokenOperand readRight noError
                cases isOpen with
                | true =>
                    rw [(stops rfl).1.noOperator (level + 1) (by omega) (by omega)] at found
                    cases found
                | false =>
                    refine ⟨rightOpen, _, .binop high bounded member space skipped phrase rightPhrase, ?_, rightStops⟩
                    rw [buf, opBuf, gapBuf, rightBuf]
                    simp

include selfSound selfKeeps selfEnds in
theorem levelParse_sound (level : Nat) (bounded : level < 10) :
    IsSound (.level (level + 1)) (levelParse bound self (level + 1)) := by
  induction level with
  | zero => exact factor_sound selfSound selfKeeps selfEnds
  | succ level ih =>
      match level with
      | 0 => exact addend_sound selfSound selfKeeps selfEnds
      | level + 1 => exact rightAssociative_sound (by omega) bounded (levelParse_keeps selfKeeps _) (ih (by omega)) _

/-! ## Whole expressions -/

include selfSound selfKeeps selfEnds in
theorem ternary_sound (fuel : Nat) : IsSound .conditional (ternary bound self fuel) := by
  intro parser result after atToken ended noError
  induction fuel generalizing parser result after with
  | zero => cases ended
  | succ fuel ih =>
      have levelKeeps : Run.Respects Keeps (logicalOr bound self) := levelParse_keeps selfKeeps 10
      have levelSound : IsSound (.level 10) (logicalOr bound self) :=
        levelParse_sound selfSound selfKeeps selfEnds 9 (by omega)
      obtain ⟨condition, atMark, read, endedMark⟩ := Run.bind_done.mp ended
      have tokenMark := (levelKeeps.done read atToken).1
      cases condition with
      | none =>
          cases endedMark
          exact levelSound _ _ _ atToken read noError
      | some condition =>
          obtain ⟨question, inBody, parseQuestion, endedBody⟩ := Run.bind_done.mp endedMark
          obtain ⟨tokenBody, markError⟩ := (parseChar_keeps _).done parseQuestion tokenMark
          cases question with
          | false =>
              obtain ⟨rfl, -⟩ := parseChar_false parseQuestion
              cases endedBody
              obtain ⟨isOpen, lexemes, phrase, buf, stops⟩ := levelSound _ _ _ atToken read noError
              exact ⟨isOpen, lexemes, .value phrase, buf, stops⟩
          | true =>
              obtain ⟨body, atColon, readBody, endedColon⟩ := Run.bind_done.mp endedBody
              obtain ⟨tokenColon, bodyError⟩ := (ternary_keeps selfKeeps _).done readBody tokenBody
              cases body with
              | none => exact absurd endedColon (no_error noError)
              | some body =>
                  obtain ⟨colon, inElse, parseColon, endedElse⟩ := Run.bind_done.mp endedColon
                  obtain ⟨tokenElse, colonError⟩ := (expectChar_keeps _).done parseColon tokenColon
                  cases colon with
                  | false =>
                      cases endedElse
                      cases (expectChar_true parseColon noError).1
                  | true =>
                      obtain ⟨elsePart, atEnd, readElse, endedEnd⟩ := Run.bind_done.mp endedElse
                      have elseError := ((ternary_keeps selfKeeps _).done readElse tokenElse).2
                      cases elsePart with
                      | none => exact absurd endedEnd (no_error noError)
                      | some elsePart =>
                          cases endedEnd
                          have noErrorElse := elseError noError
                          have noErrorColon := colonError noErrorElse
                          obtain ⟨isOpen, lexemes, phrase, buf, stops⟩ :=
                            levelSound _ _ _ atToken read (markError (bodyError noErrorColon))
                          obtain ⟨bodyOpen, bodyLexemes, bodyPhrase, bodyBuf, -⟩ :=
                            ih _ _ _ tokenBody readBody noErrorColon
                          obtain ⟨elseOpen, elseLexemes, elsePhrase, elseBuf, elseStops⟩ :=
                            ih _ _ _ tokenElse readElse noError
                          have markBuf := parseChar_true parseQuestion
                          cases isOpen with
                          | true =>
                              have noQuestion := (stops rfl).2
                              rw [markBuf] at noQuestion
                              exact absurd rfl noQuestion
                          | false =>
                              refine ⟨elseOpen, _, .cond phrase bodyPhrase elsePhrase, ?_, elseStops⟩
                              rw [buf, markBuf, bodyBuf, (expectChar_true parseColon noErrorElse).2, elseBuf]
                              simp

theorem assignOps_str {str : Str} {op : ArithmAssignOp} (member : (str, op) ∈ assignOps) : str = assignStr op := by
  simp only [assignOps, List.mem_cons, List.not_mem_nil, or_false] at member
  rcases member with same | same | same | same | same | same | same | same | same | same | same <;>
    (cases same; rfl)

include selfSound in
theorem assignment_sound (atToken : AtToken parser) (ended : assignment self parser = .done result after)
    (noError : after.error = none) :
    (result = none ∧ after = parser ∧ (nameLength false true parser.buf = 0 ∨
      assignOpAt (parser.buf.drop (nameLength false true parser.buf)) = none)) ∨
      ∃ expr lexemes, result = some expr ∧ Phrase false .whole true lexemes expr ∧
        parser.buf = lexemesText lexemes ++ after.buf := by
  rw [assignment, Run.bind_of_done (atToken.peekName false), Run.ite_apply] at ended
  split at ended
  · rename_i noName
    cases ended
    exact .inl ⟨rfl, rfl, .inl (by simpa using noName)⟩
  · rename_i someName
    rw [Run.gets_bind] at ended
    cases found : assignOpAt (parser.buf.drop (nameLength false true parser.buf)) with
    | none =>
        rw [show assignOps.find? _ = none from found] at ended
        cases ended
        exact .inl ⟨rfl, rfl, .inr rfl⟩
    | some op =>
        obtain ⟨str, op⟩ := op
        rw [show assignOps.find? _ = some (str, op) from found] at ended
        obtain ⟨name, atOp, readName, endedOp⟩ := Run.bind_done.mp ended
        obtain ⟨tokenOp, _⟩ := (parserRead_keeps _).done readName atToken
        obtain ⟨read, atValue, readOp, endedValue⟩ := Run.bind_done.mp endedOp
        obtain ⟨tokenValue, _⟩ := (parserRead_keeps _).done readOp tokenOp
        obtain ⟨value, atEnd, readValue, endedEnd⟩ := Run.bind_done.mp endedValue
        cases value with
        | none => exact absurd endedEnd (no_error noError)
        | some value =>
            cases endedEnd
            obtain ⟨isOpen, lexemes, phrase, valueBuf, -⟩ := selfSound _ _ _ tokenValue readValue noError
            obtain ⟨isName, nameBuf⟩ := name_read (by simpa using someName) readName
            obtain ⟨opBuf, opLength⟩ := parserRead_buf readOp
            have length := (parserRead_buf readName).2
            have behind : parser.buf.drop (nameLength false true parser.buf) = atOp.buf := by
              rw [← length, nameBuf, List.drop_left]
            have isAt : str.isPrefixOf atOp.buf = true := by
              rw [← behind]
              exact List.find?_some (p := fun other : Str × ArithmAssignOp => other.1.isPrefixOf _) found
            have opRead : read = assignStr op := by
              rw [← assignOps_str (List.mem_of_find?_eq_some found),
                List.prefix_iff_eq_take.mp (List.isPrefixOf_iff_prefix.mp isAt), opBuf, ← opLength, List.take_left]
            refine .inr ⟨_, _, rfl, .assign op isName phrase, ?_⟩
            rw [nameBuf, opBuf, opRead, valueBuf]
            simp

theorem ComparedName.assigned {lexemes : List Lexeme} (compared : ComparedName lexemes)
    (buf : parser.buf = lexemesText lexemes ++ after.buf) :
    nameLength false true parser.buf ≠ 0 ∧
      assignOpAt (parser.buf.drop (nameLength false true parser.buf)) ≠ none := by
  obtain ⟨name, gap, more, isName, rfl⟩ := compared
  have split : parser.buf = name ++ '=' :: '=' :: (gap ++ (lexemesText more ++ after.buf)) := by simp [buf]
  have length : nameLength false true parser.buf = name.length := by
    rw [split]
    exact nameLength_name true name isName.2 rfl (.inl isName.1)
  rw [length, split, List.drop_left]
  refine ⟨fun zero => isName.1 (List.length_eq_zero_iff.mp zero), fun absent => ?_⟩
  simp [assignOpAt, assignOps] at absent

end

theorem arithmExpr_sound (fuel : Nat) : IsSound .whole (arithmExpr fuel) := by
  induction fuel with
  | zero =>
      intro parser result after _ ended
      cases ended
  | succ fuel ih =>
      intro parser result after atToken ended noError
      obtain ⟨assigned, between, tryAssignment, endedTernary⟩ := Run.bind_done.mp ended
      have ends := arithmExpr_ends (fuel + 1) parser
      cases assigned with
      | some assigned =>
          cases endedTernary
          rcases assignment_sound ih atToken tryAssignment noError with ⟨absent, -⟩ | ⟨expr, lexemes, same, phrase, buf⟩
          · cases absent
          · cases same
            exact ⟨true, lexemes, phrase, buf, fun _ => ends _ _ ended⟩
      | none =>
          obtain ⟨tokenBetween, -⟩ := (assignment_keeps (arithmExpr_keeps fuel)).done tryAssignment atToken
          have noErrorBetween := ((ternary_keeps (arithmExpr_keeps fuel) _).done endedTernary tokenBetween).2 noError
          rcases assignment_sound ih atToken tryAssignment noErrorBetween with ⟨-, rfl, unassigned⟩ | ⟨_, _, absent, _⟩
          swap
          · cases absent
          have part := ternary_sound ih (arithmExpr_keeps fuel) (arithmExpr_ends fuel) _ _ _ _ tokenBetween endedTernary
            noError
          cases result with
          | none => exact part
          | some expr =>
              obtain ⟨isOpen, lexemes, phrase, buf, -⟩ := part
              refine ⟨true, lexemes, .whole phrase ?_, buf, fun _ => ends _ _ ended⟩
              intro compared
              obtain ⟨someName, someOp⟩ := compared.assigned buf
              exact unassigned.elim someName someOp

/-! ## Texts -/

theorem symbol_not_operand {text : Str} {sym : SymbolName} (starts : symbolAt text = some sym) (other : sym ≠ .token) :
    operandChar (charAt text 0) = false := by
  cases operand : operandChar (charAt text 0) with
  | false => rfl
  | true =>
      cases text with
      | nil => cases operand
      | cons c more =>
          have first : operandChar c = true := operand
          rw [operandChar_token first more] at starts
          exact absurd (Option.some.inj starts).symm other

theorem arithmExpr_nothing {fuel : Nat} {expr : ArithmExpr} (found : parser.hasSym = true) (other : parser.sym ≠ .token)
    (noOperand : operandChar (charAt parser.buf 0) = false) : arithmExpr fuel parser ≠ .done (some expr) after := by
  intro ended
  simp only [operandChar, Bool.or_eq_false_iff] at noOperand
  obtain ⟨⟨⟨noParen, noUnop⟩, -⟩, noAlphanum⟩ := noOperand
  have noName : peekName false parser = .done 0 parser := by simp [peekName, symbol, getSymbol, found, other]
  have noAssignment : ∀ self, assignment self parser = .done none parser := by
    intro self
    rw [assignment, Run.bind_of_done noName]
    rfl
  have noTerm : ∀ self, arithmTerm self parser = .done none parser := by
    intro self
    have unopened : parseChar '(' parser = .done false parser := by
      have different : charAt parser.buf 0 ≠ '(' := by simpa using noParen
      simp [parseChar, parserPeekChar, parserPeekAt, different]
    have parenNone : paren self parser = .done none parser := by
      rw [paren, Run.bind_of_done unopened]
      rfl
    have unopNone : unop self parser = .done none parser := by
      have peeked : parserPeekChar parser = .done (charAt parser.buf 0) parser := rfl
      rw [unop, Run.bind_of_done peeked, Option.isSome_eq_false_iff.mp noUnop |> Option.isNone_iff_eq_none.mp]
      rfl
    have literalNone : arithmLiteral parser = .done none parser := by
      have noDigits : parser.buf.takeWhile Char.isDigit = [] := by
        cases buf : parser.buf with
        | nil => rfl
        | cons c more =>
            rw [buf, show charAt (c :: more) 0 = c from rfl, Char.isAlphanum, Bool.or_eq_false_iff] at noAlphanum
            simp [noAlphanum.2]
      rw [arithmLiteral, Run.gets_bind, noDigits]
      rfl
    have variableNone : arithmVariable parser = .done none parser := by
      rw [arithmVariable, Run.bind_of_done noName]
      rfl
    apply (Run.bind_of_done parenNone).trans
    apply (Run.bind_of_done unopNone).trans
    apply (Run.bind_of_done literalNone).trans
    exact (Run.bind_of_done variableNone).trans rfl
  rcases fuel with _ | _ | fuel
  · cases ended
  · rw [arithmExpr, Run.bind_of_done (noAssignment _)] at ended
    cases ended
  · rw [arithmExpr, Run.bind_of_done (noAssignment _)] at ended
    have failed := noTerm (arithmExpr (fuel + 1))
    have absent : ternary (fuel + 1) (arithmExpr (fuel + 1)) (fuel + 1) parser = _ :=
      ternary_none fuel failed (by omega)
    change ternary (fuel + 1) (arithmExpr (fuel + 1)) (fuel + 1) parser = _ at ended
    rw [absent] at ended
    cases ended

theorem dropWhile_visible {text : Str} (visible : isSpace (charAt text 0) = false) :
    text.dropWhile isBlank = text := by
  cases text with
  | nil => rfl
  | cons c more =>
      have first : isSpace c = false := visible
      have notBlank : isBlank c = false := by
        cases blank : isBlank c with
        | false => rfl
        | true =>
            simp only [isBlank, Bool.or_eq_true, beq_iff_eq] at blank
            rcases blank with rfl | rfl <;> cases first
      rw [List.dropWhile_cons_of_neg (by simp [notBlank])]

/-- An expression is only read from a token, which the parser finds first. -/
theorem arithmExpr_atToken {fuel : Nat} {expr : ArithmExpr} (fresh : parser.hasSym = false)
    (visible : isSpace (charAt parser.buf 0) = false) (ended : arithmExpr fuel parser = .done (some expr) after) :
    ∃ found, AtToken found ∧ found.buf = parser.buf ∧ arithmExpr fuel found = .done (some expr) after := by
  cases fuel with
  | zero => cases ended
  | succ fuel =>
      obtain ⟨found, finds, hasSym, token⟩ := nextSymbolWithin_token (parser.buf.length + 1) parser (Nat.lt_succ_self _)
      have next : nextSymbol parser = .done () found := by
        rw [nextSymbol, bufferFuel, Run.gets_bind]
        exact finds
      have peeked : peekName false parser = peekName false found := by
        simp [peekName, symbol, getSymbol, fresh, next, hasSym]
      have same : arithmExpr (fuel + 1) parser = arithmExpr (fuel + 1) found := by
        simp only [arithmExpr, assignment, Run.bind_apply, peeked]
      rw [same] at ended
      have starts := (nextSymbolWithin_finds _ finds).2
      by_cases isToken : found.sym = .token
      · split at token
        · rw [dropWhile_visible visible] at token
          exact ⟨found, ⟨hasSym, isToken⟩, token.2, ended⟩
        · exact absurd isToken token
      · exact absurd ended (arithmExpr_nothing hasSym isToken (symbol_not_operand starts isToken))

theorem charAt_end {text : Str} (visible : '\x00' ∉ text) (ends : charAt text 0 = '\x00') : text = [] := by
  cases text with
  | nil => rfl
  | cons c more =>
      have first : c = '\x00' := ends
      exact absurd (first ▸ List.mem_cons_self) visible

/-- Without an error, the parser only returns expressions of the grammar. -/
theorem mrshParseArithmExpr_sound {text : Str} {expr : ArithmExpr} {fuel : Nat} (visible : '\x00' ∉ text)
    (ended : mrshParseArithmExpr fuel (mrshParserWithData text) = .done (some expr) after)
    (noError : after.error = none) : IsExpression false text expr := by
  obtain ⟨_, start, skip, endedExpr⟩ := Run.bind_done.mp ended
  obtain ⟨gap, space, gapBuf⟩ := consumeWhitespace_buf skip
  obtain ⟨parsed, atEnd, read, endedEnd⟩ := Run.bind_done.mp endedExpr
  cases parsed with
  | none => cases endedEnd
  | some parsed =>
      obtain ⟨next, _, peeked, endedEnd⟩ := Run.bind_done.mp endedEnd
      cases peeked
      rw [Run.ite_apply] at endedEnd
      split at endedEnd
      · exact absurd endedEnd (no_error noError)
      · rename_i ends
        cases endedEnd
        obtain ⟨found, atToken, sameBuf, readFound⟩ :=
          arithmExpr_atToken (consumeWhitespace_fresh rfl skip) (consumeWhitespace_ends skip) read
        obtain ⟨isOpen, lexemes, phrase, buf, -⟩ := arithmExpr_sound fuel _ _ _ atToken readFound noError
        change text = gap ++ start.buf at gapBuf
        rw [sameBuf] at buf
        rw [buf] at gapBuf
        have atNul : charAt after.buf 0 = '\x00' := by simpa using ends
        have rest : after.buf = [] := charAt_end (fun member => visible (by simp [gapBuf, member])) atNul
        rw [rest, List.append_nil] at gapBuf
        exact ⟨gap, isOpen, lexemes, space, phrase, gapBuf⟩

end Mrsh
