import Mrsh.Numerals
import Mrsh.Parser.ArithmLevels
import Mrsh.Parser.PlainWord

namespace Mrsh

open Mrsh.Data

/-! # Written expressions

An expression that is written with all its operands in parentheses is read back.
Inside of the parentheses the grammar starts again, so that no level has to
decide how far an operand extends.
-/

def assignStr : ArithmAssignOp → Str
  | .none => ['=']
  | .asterisk => ['*', '=']
  | .slash => ['/', '=']
  | .percent => ['%', '=']
  | .plus => ['+', '=']
  | .minus => ['-', '=']
  | .dless => ['<', '<', '=']
  | .dgreat => ['>', '>', '=']
  | .and => ['&', '=']
  | .circ => ['^', '=']
  | .or => ['|', '=']

def parens (text : Str) : Str := '(' :: (text ++ [')'])

namespace ArithmExpr

/-- The text of the expression, with each operand in parentheses. -/
def written : ArithmExpr → Str
  | .literal value => decimal value
  | .var name => name
  | .unop type body => unopChar type :: parens body.written
  | .binop type left right => parens left.written ++ ((binopToken type).str ++ parens right.written)
  | .cond condition body elsePart =>
      parens condition.written ++ '?' :: (parens body.written ++ ':' :: parens elsePart.written)
  | .assign op name value => name ++ (assignStr op ++ parens value.written)

/-- The literals are in the range of a `long`, and the names are names. -/
def IsWritable : ArithmExpr → Prop
  | .literal value => 0 ≤ value ∧ value ≤ longMax
  | .var name => IsName name
  | .unop _ body => body.IsWritable
  | .binop _ left right => left.IsWritable ∧ right.IsWritable
  | .cond condition body elsePart => condition.IsWritable ∧ body.IsWritable ∧ elsePart.IsWritable
  | .assign _ name value => IsName name ∧ value.IsWritable
where
  IsName (name : Str) : Prop := name ≠ [] ∧ nameLength false true name = name.length

end ArithmExpr

/-- A parser without errors before the given text. The symbol that it keeps, if any, is a token. -/
structure Scanning (text : Str) (parser : Parser) : Prop where
  buf : parser.buf = text
  settled : parser.hasSym = true → parser.sym = .token
  noError : parser.error = none

variable {text rest : Str} {parser : Parser}

theorem Scanning.moved {str : Str} (scanning : Scanning (str ++ rest) parser) (pos : Position) (line : Bool) :
    Scanning rest (parser.moved rest pos line) := ⟨rfl, scanning.settled, scanning.noError⟩

theorem Scanning.peekName (scanning : Scanning text parser) (starts : symbolAt text = some .token) :
    ∃ after, Mrsh.peekName false parser = .done (nameLength false true text) after ∧ Scanning text after := by
  have buf := scanning.buf
  subst buf
  cases pending : parser.hasSym with
  | true =>
      refine ⟨parser, ?_, scanning⟩
      simp [Mrsh.peekName, symbol, getSymbol, pending, scanning.settled pending]
  | false =>
      have next := nextSymbolWithin_of_symbolAt parser parser.buf.length starts
      refine ⟨{ parser with hasSym := true, sym := .token }, ?_, ⟨rfl, fun _ => rfl, scanning.noError⟩⟩
      simp [Mrsh.peekName, symbol, getSymbol, pending, nextSymbol, bufferFuel, next]

/-- The parser reads the text as the expression and stops before the rest. -/
def Reads (parse : Parse (Option ArithmExpr)) (text rest : Str) (expr : ArithmExpr) : Prop :=
  ∀ parser, Scanning (text ++ rest) parser →
    ∃ after, parse parser = .done (some expr) after ∧ Scanning rest after

/-! ## Levels -/

section

variable {bound : Nat} {self : Parse (Option ArithmExpr)} {expr left right : ArithmExpr}

theorem factorLoop_reads (fuel : Nat) (scanning : Scanning rest parser) (stops : Stops 1 rest) :
    factorLoop self (fuel + 1) expr parser = .done (some expr) parser := by
  have buf := scanning.buf
  subst buf
  rw [factorLoop, Run.bind_of_done (consumeWhitespace_none (stops.visible (by omega)))]
  change (chooseOp (parsers (levelOps 1)) >>= _) parser = _
  rw [Run.bind_of_done (levelOps_none (stops.noOperator 1 (by omega) (by omega)))]
  rfl

theorem addendLoop_reads (fuel : Nat) (scanning : Scanning rest parser) (stops : Stops 2 rest) :
    addendLoop bound self (fuel + 1) expr parser = .done (some expr) parser := by
  have buf := scanning.buf
  subst buf
  rw [addendLoop]
  change (chooseOp (parsers (levelOps 2)) >>= _) parser = _
  rw [Run.bind_of_done (levelOps_none (stops.noOperator 2 (by omega) (by omega)))]
  rfl

theorem rightAssociative_reads {operand : Parse (Option ArithmExpr)} {skip : Parse Unit} {level : Nat} (fuel : Nat)
    (reads : Reads operand text rest expr) (absent : levelOpAt level rest = none) :
    Reads (rightAssociative operand (parsers (levelOps level)) skip (fuel + 1)) text rest expr := by
  intro parser scanning
  obtain ⟨after, read, atRest⟩ := reads parser scanning
  have buf := atRest.buf
  subst buf
  refine ⟨after, ?_, atRest⟩
  rw [rightAssociative]
  apply (Run.bind_of_done read).trans
  apply (Run.bind_of_done (levelOps_none absent)).trans
  rfl

/-- A level reads what the level below reads, if there is no operator after it. -/
theorem Reads.up {level fuel : Nat} (reads : Reads (levelParse (fuel + 1) self level) text rest expr)
    (stops : Stops (level + 1) rest) : Reads (levelParse (fuel + 1) self (level + 1)) text rest expr := by
  match level with
  | 0 =>
      intro parser scanning
      obtain ⟨after, read, atRest⟩ := reads parser scanning
      refine ⟨after, ?_, atRest⟩
      change (arithmTerm self >>= _) parser = _
      apply (Run.bind_of_done read).trans
      exact factorLoop_reads fuel atRest stops
  | 1 =>
      intro parser scanning
      obtain ⟨after, read, atRest⟩ := reads parser scanning
      refine ⟨after, ?_, atRest⟩
      change (factor (fuel + 1) self >>= _) parser = _
      apply (Run.bind_of_done read).trans
      exact addendLoop_reads fuel atRest stops
  | level + 2 => exact rightAssociative_reads fuel reads (stops.noOperator (level + 3) (by omega) (by omega))

theorem Stops.le {level lower : Nat} (stops : Stops level rest) (bounded : lower ≤ level) : Stops lower rest where
  visible positive := stops.visible (by omega)
  noOperator other positive small := stops.noOperator other positive (by omega)

theorem Reads.upTo {level upper fuel : Nat} (reads : Reads (levelParse (fuel + 1) self level) text rest expr)
    (bounded : level ≤ upper) (stops : Stops upper rest) :
    Reads (levelParse (fuel + 1) self upper) text rest expr := by
  induction bounded with
  | refl => exact reads
  | step _ ih => exact (ih (stops.le (by omega))).up stops

theorem levelSkip_none (level : Nat) (visible : isSpace (charAt parser.buf 0) = false) :
    levelSkip level parser = .done () parser := by
  unfold levelSkip
  split
  · rfl
  · exact consumeWhitespace_none visible

theorem chooseOp_between {level : Nat} {op : OpToken} {rightText : Str}
    (scanning : Scanning (op.str ++ (rightText ++ rest)) parser)
    (found : levelOpAt level (op.str ++ (rightText ++ rest)) = some op) :
    ∃ after, chooseOp (parsers (levelOps level)) parser = .done (some op.type) after ∧
      Scanning (rightText ++ rest) after := by
  rw [← scanning.buf] at found
  obtain ⟨more, pos, line, buf, chosen⟩ := levelOps_some found
  obtain rfl : more = rightText ++ rest := by
    rw [scanning.buf] at buf
    exact (List.append_cancel_left buf).symm
  exact ⟨_, chosen, scanning.moved pos line⟩

theorem rightAssociative_binop {operand : Parse (Option ArithmExpr)} {level fuel : Nat} {op : OpToken}
    {leftText rightText : Str}
    (leftReads : Reads operand leftText (op.str ++ (rightText ++ rest)) left)
    (rightReads : Reads operand rightText rest right)
    (found : levelOpAt level (op.str ++ (rightText ++ rest)) = some op)
    (visible : isSpace (charAt (rightText ++ rest) 0) = false) (absent : levelOpAt level rest = none) :
    Reads (rightAssociative operand (parsers (levelOps level)) (levelSkip level) (fuel + 2))
      (leftText ++ (op.str ++ rightText)) rest (.binop op.type left right) := by
  intro parser scanning
  rw [List.append_assoc, List.append_assoc] at scanning
  obtain ⟨between, readLeft, atOp⟩ := leftReads parser scanning
  obtain ⟨behind, chosen, atRight⟩ := chooseOp_between atOp found
  obtain ⟨after, readRight, atRest⟩ :=
    (rightAssociative_reads fuel rightReads absent : Reads (rightAssociative operand (parsers (levelOps level))
      (levelSkip level) (fuel + 1)) rightText rest right) behind atRight
  refine ⟨after, ?_, atRest⟩
  rw [rightAssociative]
  apply (Run.bind_of_done readLeft).trans
  apply (Run.bind_of_done chosen).trans
  have skipped : levelSkip level behind = .done () behind :=
    levelSkip_none level (by rw [atRight.buf]; exact visible)
  apply (Run.bind_of_done skipped).trans
  apply (Run.bind_of_done readRight).trans
  rfl

/-- Two operands of a level with an operator of the level above between them. -/
theorem Reads.binop {level fuel : Nat} {op : OpToken} {leftText rightText : Str}
    (leftReads : Reads (levelParse (fuel + 2) self level) leftText (op.str ++ (rightText ++ rest)) left)
    (rightReads : Reads (levelParse (fuel + 2) self level) rightText rest right)
    (found : levelOpAt (level + 1) (op.str ++ (rightText ++ rest)) = some op)
    (opVisible : isSpace (charAt (op.str ++ (rightText ++ rest)) 0) = false)
    (visible : isSpace (charAt (rightText ++ rest) 0) = false) (stops : Stops (level + 1) rest) :
    Reads (levelParse (fuel + 2) self (level + 1)) (leftText ++ (op.str ++ rightText)) rest
      (.binop op.type left right) := by
  match level with
  | 0 =>
      intro parser scanning
      rw [List.append_assoc, List.append_assoc] at scanning
      obtain ⟨between, readLeft, atOp⟩ := leftReads parser scanning
      obtain ⟨behind, chosen, atRight⟩ := chooseOp_between atOp found
      obtain ⟨after, readRight, atRest⟩ := rightReads behind atRight
      refine ⟨after, ?_, atRest⟩
      change (arithmTerm self >>= _) parser = _
      apply (Run.bind_of_done readLeft).trans
      change factorLoop self (fuel + 2) left between = _
      rw [factorLoop, Run.bind_of_done (consumeWhitespace_none (by rw [atOp.buf]; exact opVisible))]
      apply (Run.bind_of_done chosen).trans
      apply (Run.bind_of_done (consumeWhitespace_none (by rw [atRight.buf]; exact visible))).trans
      apply (Run.bind_of_done readRight).trans
      exact factorLoop_reads fuel atRest stops
  | 1 =>
      intro parser scanning
      rw [List.append_assoc, List.append_assoc] at scanning
      obtain ⟨between, readLeft, atOp⟩ := leftReads parser scanning
      obtain ⟨behind, chosen, atRight⟩ := chooseOp_between atOp found
      obtain ⟨after, readRight, atRest⟩ := rightReads behind atRight
      refine ⟨after, ?_, atRest⟩
      change (factor (fuel + 2) self >>= _) parser = _
      apply (Run.bind_of_done readLeft).trans
      change addendLoop (fuel + 2) self (fuel + 2) left between = _
      rw [addendLoop]
      apply (Run.bind_of_done chosen).trans
      apply (Run.bind_of_done (consumeWhitespace_none (by rw [atRight.buf]; exact visible))).trans
      apply (Run.bind_of_done readRight).trans
      exact addendLoop_reads fuel atRest stops
  | level + 2 =>
      exact rightAssociative_binop leftReads rightReads found visible
        (stops.noOperator (level + 3) (by omega) (by omega))

/-! ## Terms -/

theorem Scanning.parseChar {c : Char} (scanning : Scanning (c :: rest) parser) (visible : c ≠ '\x00') :
    ∃ after, Mrsh.parseChar c parser = .done true after ∧ Scanning rest after := by
  have read := parserReadChar_cons scanning.buf visible
  have peeked : charAt parser.buf 0 = c := by
    rw [scanning.buf]
    rfl
  refine ⟨parser.moved rest (parser.pos.advance c) false, ?_, ⟨rfl, scanning.settled, scanning.noError⟩⟩
  simp [Mrsh.parseChar, parserPeekChar, parserPeekAt, peeked, read]

theorem Scanning.parseChar_none {c : Char} (scanning : Scanning text parser) (different : charAt text 0 ≠ c) :
    Mrsh.parseChar c parser = .done false parser := by
  rw [← scanning.buf] at different
  simp [Mrsh.parseChar, parserPeekChar, parserPeekAt, different]

theorem Scanning.visible {parser : Parser} (scanning : Scanning text parser)
    (visible : isSpace (charAt text 0) = false) :
    consumeWhitespace parser = .done () parser :=
  consumeWhitespace_none (by rw [scanning.buf]; exact visible)

theorem parens_reads (reads : Reads self text (')' :: rest) expr)
    (visible : isSpace (charAt (text ++ ')' :: rest) 0) = false) :
    Reads (arithmTerm self) (parens text) rest expr := by
  intro parser scanning
  have split : parens text ++ rest = '(' :: (text ++ ')' :: rest) := by simp [parens]
  rw [split] at scanning
  obtain ⟨inside, opened, atText⟩ := scanning.parseChar (by decide)
  obtain ⟨between, read, atClose⟩ := reads inside atText
  obtain ⟨after, closed, atRest⟩ := atClose.parseChar (by decide)
  have closedTwice : expectChar ')' between = .done true after := by
    rw [expectChar, Run.bind_of_done closed]
    rfl
  have parenthesised : paren self parser = .done (some expr) after := by
    rw [paren, Run.bind_of_done opened, if_pos rfl]
    apply (Run.bind_of_done (atText.visible visible)).trans
    apply (Run.bind_of_done read).trans
    apply (Run.bind_of_done closedTwice).trans
    rfl
  refine ⟨after, ?_, atRest⟩
  apply (Run.bind_of_done parenthesised).trans
  rfl

theorem Scanning.paren_none (scanning : Scanning text parser) (different : charAt text 0 ≠ '(') :
    paren self parser = .done none parser := by
  rw [paren, Run.bind_of_done (scanning.parseChar_none different)]
  rfl

theorem arithmTerm_of_paren_none {middle : Parser} (unparenthesised : paren self parser = .done none middle) :
    arithmTerm self parser = firstExpr [unop self, arithmLiteral, arithmVariable] middle := by
  rw [arithmTerm, firstExpr, Run.bind_of_done unparenthesised]

theorem unop_alternative {type : ArithmUnopType} (reads : Reads self text rest expr)
    (scanning : Scanning (unopChar type :: text ++ rest) parser) :
    ∃ after, firstExpr [unop self, arithmLiteral, arithmVariable] parser = .done (some (.unop type expr)) after ∧
      Scanning rest after := by
  have visible : unopChar type ≠ '\x00' := by
    cases type <;> decide
  have read := parserReadChar_cons scanning.buf visible
  have peeked : charAt parser.buf 0 = unopChar type := by
    rw [scanning.buf]
    rfl
  obtain ⟨after, readBody, atRest⟩ := reads _ (⟨rfl, scanning.settled, scanning.noError⟩ :
    Scanning (text ++ rest) (parser.moved (text ++ rest) (parser.pos.advance (unopChar type)) false))
  have unary : unop self parser = .done (some (.unop type expr)) after := by
    rw [unop, parserPeekChar, parserPeekAt, Run.gets_bind, peeked, unopType_unopChar]
    apply (Run.bind_of_done read).trans
    apply (Run.bind_of_done readBody).trans
    rfl
  refine ⟨after, ?_, atRest⟩
  apply (Run.bind_of_done unary).trans
  rfl

theorem unop_reads {type : ArithmUnopType} (reads : Reads self text rest expr) :
    Reads (arithmTerm self) (unopChar type :: text) rest (.unop type expr) := by
  intro parser scanning
  have different : charAt (unopChar type :: text ++ rest) 0 ≠ '(' := by
    rw [show charAt (unopChar type :: text ++ rest) 0 = unopChar type from rfl]
    cases type <;> decide
  rw [arithmTerm_of_paren_none (scanning.paren_none different)]
  exact unop_alternative reads scanning

theorem Scanning.unop_none (scanning : Scanning text parser) (absent : unopType (charAt text 0) = none) :
    unop self parser = .done none parser := by
  rw [← scanning.buf] at absent
  rw [unop, parserPeekChar, parserPeekAt, Run.gets_bind, absent]
  rfl

end

/-- The text after an expression that is not an operand of another one. -/
def EndsExpr (rest : Str) : Prop := rest = [] ∨ ∃ more, rest = ')' :: more

theorem stops_of_char {c : Char} (closing : c = ')' ∨ c = '?' ∨ c = ':') (more : Str) : Stops 10 (c :: more) := by
  have absent : ∀ level, level ≤ 10 → levelOpAt level (c :: more) = none := by
    intro level bounded
    match level with
    | 0 | 1 | 2 | 3 | 4 | 5 | 6 | 7 | 8 | 9 | 10 => rcases closing with rfl | rfl | rfl <;> rfl
  refine ⟨fun _ => ?_, fun level _ => absent level⟩
  rcases closing with rfl | rfl | rfl <;> rfl

theorem EndsExpr.stops (ends : EndsExpr rest) : StopsAll rest := by
  rcases ends with rfl | ⟨more, rfl⟩
  · refine ⟨⟨fun _ => rfl, fun level _ bounded => ?_⟩, by decide⟩
    match level with
    | 0 | 1 | 2 | 3 | 4 | 5 | 6 | 7 | 8 | 9 | 10 => rfl
  · exact ⟨stops_of_char (.inl rfl) more, (by decide : ')' ≠ '?')⟩

/-! ## Names and numbers -/

theorem nameChar_token {c : Char} (nameChar : (c == '_' || c.isAlphanum) = true) (rest : Str) :
    symbolAt (c :: rest) = some .token ∧ isSpace c = false ∧ unopType c = none ∧ c ≠ '(' := by
  have different : ∀ d : Char, (d == '_' || d.isAlphanum) = false → c ≠ d := by
    rintro d other rfl
    rw [other] at nameChar
    cases nameChar
  have first : charAt (c :: rest) 0 = c := rfl
  refine ⟨?_, ?_, ?_, different '(' rfl⟩
  · simp [symbolAt, first, isOperatorStart, isBlank, different '\x00' rfl, different '\n' rfl, different '&' rfl,
      different '|' rfl, different ';' rfl, different '<' rfl, different '>' rfl, different ' ' rfl,
      different '\t' rfl, different '#' rfl]
  · simp [isSpace, different ' ' rfl, different '\t' rfl, different '\n' rfl, different '\x0b' rfl,
      different '\x0c' rfl, different '\r' rfl]
  · simp [unopType, different '+' rfl, different '-' rfl, different '~' rfl, different '!' rfl]

theorem nameLength_chars {inBraces : Bool} (first : Bool) (name : Str)
    (whole : nameLength inBraces first name = name.length) :
    ∀ c ∈ name, (c == '_' || c.isAlphanum) = true := by
  induction name generalizing first with
  | nil => simp
  | cons c name ih =>
      rw [nameLength] at whole
      split at whole
      · simp at whole
      · split at whole
        · simp at whole
        · rename_i nameChar _
          rw [List.forall_mem_cons]
          refine ⟨?_, ih false (by simpa using whole)⟩
          simp only [Bool.and_eq_true, bne_iff_ne, Bool.not_eq_true'] at nameChar
          grind

theorem nameLength_name {inBraces : Bool} (first : Bool) (name : Str)
    (whole : nameLength inBraces first name = name.length) (ends : nameLength inBraces false rest = 0)
    (nonempty : name ≠ [] ∨ first = false) : nameLength inBraces first (name ++ rest) = name.length := by
  induction name generalizing first with
  | nil =>
      rcases nonempty with absurd_ | rfl
      · exact absurd rfl absurd_
      · exact ends
  | cons c name ih =>
      rw [List.cons_append, nameLength]
      rw [nameLength] at whole
      split at whole
      · simp at whole
      · split at whole
        · simp at whole
        · rename_i nameChar noDigit
          rw [if_neg nameChar, if_neg noDigit, ih false (by simpa using whole) (.inr rfl), List.length_cons]

/-- The names of variables. -/
structure NameText (name rest : Str) : Prop where
  length : nameLength false true (name ++ rest) = name.length
  starts : ∃ c more, name = c :: more ∧ (c == '_' || c.isAlphanum) = true ∧ c.isDigit = false
  visible : ∀ c ∈ name, c ≠ '\x00'

theorem nameText {name : Str} (isName : ArithmExpr.IsWritable.IsName name) (ends : nameLength false false rest = 0) :
    NameText name rest where
  length := nameLength_name true name isName.2 ends (.inl isName.1)
  starts := by
    obtain ⟨c, more, rfl⟩ := List.exists_cons_of_ne_nil isName.1
    refine ⟨c, more, rfl, nameLength_chars true (c :: more) isName.2 c List.mem_cons_self, ?_⟩
    cases digit : c.isDigit with
    | false => rfl
    | true =>
        have whole := isName.2
        simp [nameLength, digit] at whole
  visible := by
    rintro c member rfl
    exact absurd (nameLength_chars true name isName.2 _ member) (by decide)

theorem EndsExpr.nameLength (ends : EndsExpr rest) (first : Bool) : nameLength false first rest = 0 := by
  rcases ends with rfl | ⟨more, rfl⟩ <;> rfl

section

variable {bound : Nat} {self : Parse (Option ArithmExpr)} {expr condition elsePart : ArithmExpr} {name : Str}

theorem NameText.token (nameText : NameText name rest) : symbolAt (name ++ rest) = some .token := by
  obtain ⟨c, more, rfl, nameChar, _⟩ := nameText.starts
  exact (nameChar_token nameChar (more ++ rest)).1

theorem digit_start {c : Char} (digit : c.isDigit = true) (rest : Str) :
    symbolAt (c :: rest) = some .token ∧ isSpace c = false ∧ unopType c = none ∧ c ≠ '(' :=
  nameChar_token (by simp [Char.isAlphanum, digit]) rest

theorem digits_alternative {digits : Str} {value : Int} (nonempty : digits ≠ [])
    (digit : ∀ c ∈ digits, c.isDigit = true) (scanned : strtol 0 digits = ⟨value, [], false⟩)
    (ends : nameLength false false rest = 0) (scanning : Scanning (digits ++ rest) parser) :
    ∃ after, firstExpr [unop self, arithmLiteral, arithmVariable] parser = .done (some (.literal value)) after ∧
      Scanning rest after := by
  obtain ⟨c, more, rfl⟩ := List.exists_cons_of_ne_nil nonempty
  have notUnary := (digit_start (digit c List.mem_cons_self) (more ++ rest)).2.2.1
  have taken : (c :: more ++ rest).takeWhile Char.isDigit = c :: more := by
    rw [List.takeWhile_append_of_pos digit]
    cases rest with
    | nil => simp
    | cons d rest =>
        have noDigit : d.isDigit = false := by
          cases isDigit : d.isDigit with
          | false => rfl
          | true => simp [nameLength, Char.isAlphanum, isDigit] at ends
        simp [noDigit]
  have visible : ∀ d ∈ c :: more, d ≠ '\x00' := fun d member => isDigit_ne (digit d member) (by decide)
  obtain ⟨pos, line, read⟩ := parserRead_append parser (c :: more) visible scanning.buf
  have number : arithmLiteral parser = .done (some (.literal value)) (parser.moved rest pos line) := by
    rw [arithmLiteral, Run.gets_bind, scanning.buf, taken, if_neg (by simp)]
    apply (Run.bind_of_done read).trans
    rw [scanned]
    rfl
  refine ⟨_, ?_, scanning.moved pos line⟩
  apply (Run.bind_of_done (scanning.unop_none notUnary)).trans
  apply (Run.bind_of_done number).trans
  rfl

theorem literal_reads {value : Nat} (bounded : (value : Int) ≤ longMax) (ends : EndsExpr rest) :
    Reads (arithmTerm self) (decimal value) rest (.literal value) := by
  intro parser scanning
  obtain ⟨c, more, digits⟩ := List.exists_cons_of_ne_nil (decimal_ne_nil value)
  have digit := decimal_digits value
  have first : c.isDigit = true := digit c (by rw [digits]; exact List.mem_cons_self)
  have starts : charAt (decimal value ++ rest) 0 = c := by rw [digits]; rfl
  have different : charAt (decimal value ++ rest) 0 ≠ '(' := by
    rw [starts]
    exact (digit_start first rest).2.2.2
  rw [arithmTerm_of_paren_none (scanning.paren_none different)]
  exact digits_alternative (decimal_ne_nil value) digit (strtol_decimal value 0 (.inl rfl) bounded)
    (ends.nameLength false) scanning

theorem name_alternative (nameText : NameText name rest) (scanning : Scanning (name ++ rest) parser) :
    ∃ after, firstExpr [unop self, arithmLiteral, arithmVariable] parser = .done (some (.var name)) after ∧
      Scanning rest after := by
  obtain ⟨c, more, rfl, nameChar, noDigit⟩ := nameText.starts
  obtain ⟨_, _, notUnary, _⟩ := nameChar_token nameChar (more ++ rest)
  have noNumber : arithmLiteral parser = .done none parser := by
    rw [arithmLiteral, Run.gets_bind, scanning.buf]
    simp [noDigit]
  obtain ⟨found, peeked, atName⟩ := scanning.peekName nameText.token
  obtain ⟨pos, line, read⟩ := parserRead_append found (c :: more) nameText.visible atName.buf
  rw [nameText.length] at peeked
  have variable_ : arithmVariable parser = .done (some (.var (c :: more))) (found.moved rest pos line) := by
    rw [arithmVariable, Run.bind_of_done peeked, if_neg (by simp)]
    apply (Run.bind_of_done read).trans
    rfl
  refine ⟨_, ?_, atName.moved pos line⟩
  apply (Run.bind_of_done (scanning.unop_none notUnary)).trans
  apply (Run.bind_of_done noNumber).trans
  apply (Run.bind_of_done variable_).trans
  rfl

theorem var_reads (nameText : NameText name rest) : Reads (arithmTerm self) name rest (.var name) := by
  intro parser scanning
  obtain ⟨c, more, rfl, nameChar, _⟩ := nameText.starts
  have different := (nameChar_token nameChar (more ++ rest)).2.2.2
  rw [arithmTerm_of_paren_none (scanning.paren_none different)]
  exact name_alternative nameText scanning

/-! ## Conditions and assignments -/

theorem ternary_reads (fuel : Nat) (reads : Reads (levelParse bound self 10) text rest expr)
    (noQuestion : charAt rest 0 ≠ '?') : Reads (ternary bound self (fuel + 1)) text rest expr := by
  intro parser scanning
  obtain ⟨after, read, atRest⟩ := reads parser scanning
  refine ⟨after, ?_, atRest⟩
  rw [ternary, ← levelParse_logicalOr]
  apply (Run.bind_of_done read).trans
  apply (Run.bind_of_done (atRest.parseChar_none noQuestion)).trans
  rfl

theorem cond_reads (fuel : Nat) {conditionText bodyText elseText : Str}
    (conditionReads : Reads (levelParse bound self 10) conditionText ('?' :: (bodyText ++ ':' :: (elseText ++ rest)))
      condition)
    (bodyReads : Reads (levelParse bound self 10) bodyText (':' :: (elseText ++ rest)) expr)
    (elseReads : Reads (levelParse bound self 10) elseText rest elsePart) (noQuestion : charAt rest 0 ≠ '?') :
    Reads (ternary bound self (fuel + 2)) (conditionText ++ '?' :: (bodyText ++ ':' :: elseText)) rest
      (.cond condition expr elsePart) := by
  intro parser scanning
  have split : conditionText ++ '?' :: (bodyText ++ ':' :: elseText) ++ rest =
      conditionText ++ '?' :: (bodyText ++ ':' :: (elseText ++ rest)) := by simp
  rw [split] at scanning
  obtain ⟨atMark, readCondition, atQuestion⟩ := conditionReads parser scanning
  obtain ⟨inBody, question, atBody⟩ := atQuestion.parseChar (by decide)
  obtain ⟨atSign, readBody, atColon⟩ :=
    (ternary_reads fuel bodyReads (by simp [charAt]) : Reads (ternary bound self (fuel + 1)) _ _ _) inBody atBody
  obtain ⟨inElse, colon, atElse⟩ := atColon.parseChar (by decide)
  obtain ⟨after, readElse, atRest⟩ :=
    (ternary_reads fuel elseReads noQuestion : Reads (ternary bound self (fuel + 1)) _ _ _) inElse atElse
  have colonTwice : expectChar ':' atSign = .done true inElse := by
    rw [expectChar, Run.bind_of_done colon]
    rfl
  refine ⟨after, ?_, atRest⟩
  rw [ternary, ← levelParse_logicalOr]
  apply (Run.bind_of_done readCondition).trans
  apply (Run.bind_of_done question).trans
  apply (Run.bind_of_done readBody).trans
  apply (Run.bind_of_done colonTwice).trans
  apply (Run.bind_of_done readElse).trans
  rfl

/-- An expression that does not start with a name and an assignment operator. -/
theorem arithmExpr_reads {fuel : Nat} (reads : Reads (ternary fuel (arithmExpr fuel) fuel) text rest expr)
    (starts : symbolAt (text ++ rest) = some .token)
    (unassigned : nameLength false true (text ++ rest) = 0 ∨
      assignOps.find? (fun op => op.1.isPrefixOf ((text ++ rest).drop (nameLength false true (text ++ rest)))) = none) :
    Reads (arithmExpr (fuel + 1)) text rest expr := by
  intro parser scanning
  obtain ⟨found, peeked, atText⟩ := scanning.peekName starts
  have noAssignment : assignment (arithmExpr fuel) parser = .done none found := by
    rw [assignment, Run.bind_of_done peeked]
    rcases unassigned with zero | absent
    · rw [zero]
      rfl
    · rw [Run.ite_apply]
      split
      · rfl
      · rw [Run.gets_bind, atText.buf, absent]
        rfl
  obtain ⟨after, read, atRest⟩ := reads found atText
  refine ⟨after, ?_, atRest⟩
  rw [arithmExpr]
  exact (Run.bind_of_done noAssignment).trans read

theorem assign_reads {fuel : Nat} {op : ArithmAssignOp} (nameText : NameText name (assignStr op ++ (text ++ rest)))
    (operator : assignOps.find? (fun other => other.1.isPrefixOf (assignStr op ++ (text ++ rest))) =
      some (assignStr op, op))
    (reads : Reads (arithmExpr fuel) text rest expr) :
    Reads (arithmExpr (fuel + 1)) (name ++ (assignStr op ++ text)) rest (.assign op name expr) := by
  intro parser scanning
  rw [List.append_assoc, List.append_assoc] at scanning
  obtain ⟨found, peeked, atName⟩ := scanning.peekName nameText.token
  rw [nameText.length] at peeked
  have nonempty : ¬ (name.length == 0) = true := by
    obtain ⟨c, more, rfl, _⟩ := nameText.starts
    simp
  obtain ⟨pos, line, readName⟩ := parserRead_append found name nameText.visible atName.buf
  have atOp := atName.moved pos line
  have opVisible : ∀ c ∈ assignStr op, c ≠ '\x00' := by
    apply List.forall_mem_ne'.mpr
    cases op <;> decide
  obtain ⟨opPos, opLine, readOp⟩ := parserRead_append _ (assignStr op) opVisible atOp.buf
  obtain ⟨after, read, atRest⟩ := reads _ (atOp.moved opPos opLine)
  refine ⟨after, ?_, atRest⟩
  have assigned : assignment (arithmExpr fuel) parser = .done (some (.assign op name expr)) after := by
    rw [assignment, Run.bind_of_done peeked, if_neg nonempty, Run.gets_bind,
      atName.buf, List.drop_left, operator]
    apply (Run.bind_of_done readName).trans
    apply (Run.bind_of_done readOp).trans
    apply (Run.bind_of_done read).trans
    rfl
  rw [arithmExpr]
  exact Run.bind_of_done assigned

end

/-! ## All expressions -/

theorem binopToken_type (type : ArithmBinopType) : (binopToken type).type = type := by
  cases type <;> rfl

/-- The level above the operands of the operator. -/
def binopLevel : ArithmBinopType → Nat
  | .asterisk | .slash | .percent => 0
  | .plus | .minus => 1
  | .dless | .dgreat => 2
  | .less | .lesseq | .great | .greateq => 3
  | .deq | .bangeq => 4
  | .and => 5
  | .circ => 6
  | .or => 7
  | .dand => 8
  | .dor => 9

theorem binopLevel_bounded (type : ArithmBinopType) : binopLevel type + 1 ≤ 10 := by
  cases type <;> decide

/-- Before a parenthesis an operator is read by its level, and by no level below. -/
theorem binopToken_level (type : ArithmBinopType) (more : Str) :
    levelOpAt (binopLevel type + 1) ((binopToken type).str ++ '(' :: more) = some (binopToken type) ∧
      Stops (binopLevel type) ((binopToken type).str ++ '(' :: more) ∧
      isSpace (charAt ((binopToken type).str ++ '(' :: more) 0) = false := by
  have visible : isSpace (charAt ((binopToken type).str ++ '(' :: more) 0) = false := by
    cases type <;> rfl
  refine ⟨by cases type <;> rfl, ⟨fun _ => visible, fun lower positive bounded => ?_⟩, visible⟩
  match lower with
  | 0 => omega
  | 1 | 2 | 3 | 4 | 5 | 6 | 7 | 8 | 9 =>
      revert bounded
      cases type <;> first | (intro _; rfl) | (intro bounded; exact absurd bounded (by decide))
  | lower + 10 =>
      have small := binopLevel_bounded type
      omega

theorem assignStr_find (op : ArithmAssignOp) (more : Str) :
    assignOps.find? (fun other => other.1.isPrefixOf (assignStr op ++ '(' :: more)) = some (assignStr op, op) := by
  cases op <;> rfl

theorem written_visible (expr : ArithmExpr) (writable : expr.IsWritable) (rest : Str) :
    isSpace (charAt (expr.written ++ rest) 0) = false := by
  cases expr with
  | literal value =>
      obtain ⟨n, rfl⟩ := Int.eq_ofNat_of_zero_le writable.1
      obtain ⟨c, more, digits⟩ := List.exists_cons_of_ne_nil (decimal_ne_nil n)
      have digit : c.isDigit = true := decimal_digits n c (by rw [digits]; exact List.mem_cons_self)
      rw [ArithmExpr.written, digits]
      exact isDigit_not_space digit
  | var name =>
      obtain ⟨c, more, rfl⟩ := List.exists_cons_of_ne_nil writable.1
      exact (nameChar_token (nameLength_chars true _ writable.2 c List.mem_cons_self) rest).2.1
  | unop type body => cases type <;> rfl
  | binop type left right => rfl
  | cond condition body elsePart => rfl
  | assign op name value =>
      obtain ⟨c, more, rfl⟩ := List.exists_cons_of_ne_nil writable.1.1
      exact (nameChar_token (nameLength_chars true _ writable.1.2 c List.mem_cons_self) rest).2.1

/-- A term is an expression, if it does not start with a name or nothing comes after it. -/
theorem term_reads {fuel : Nat} {expr : ArithmExpr}
    (reads : Reads (arithmTerm (arithmExpr (fuel + 1))) text rest expr) (ends : EndsExpr rest)
    (starts : symbolAt (text ++ rest) = some .token)
    (unassigned : nameLength false true (text ++ rest) = 0 ∨
      assignOps.find? (fun op => op.1.isPrefixOf ((text ++ rest).drop (nameLength false true (text ++ rest)))) = none) :
    Reads (arithmExpr (fuel + 2)) text rest expr := by
  obtain ⟨stops, noQuestion⟩ := ends.stops
  have level : Reads (levelParse (fuel + 1) (arithmExpr (fuel + 1)) 0) text rest expr := reads
  exact arithmExpr_reads (ternary_reads fuel (level.upTo (by omega) stops) noQuestion) starts unassigned

/-- The expression is read back from its text, with enough fuel. -/
def IsReadBack (expr : ArithmExpr) : Prop :=
  ∃ enough, ∀ fuel, enough ≤ fuel → ∀ rest, EndsExpr rest → Reads (arithmExpr fuel) expr.written rest expr

theorem IsReadBack.parens {expr : ArithmExpr} (readBack : IsReadBack expr) (writable : expr.IsWritable) :
    ∃ enough, ∀ fuel, enough ≤ fuel → ∀ rest,
      Reads (arithmTerm (arithmExpr fuel)) (Mrsh.parens expr.written) rest expr := by
  obtain ⟨enough, reads⟩ := readBack
  refine ⟨enough, fun fuel large rest => ?_⟩
  exact parens_reads (reads fuel large (')' :: rest) (.inr ⟨rest, rfl⟩)) (written_visible expr writable _)

theorem IsReadBack.wholeParens {expr : ArithmExpr} (readBack : IsReadBack expr) (writable : expr.IsWritable) :
    ∃ enough, ∀ fuel, enough ≤ fuel → ∀ rest, EndsExpr rest →
      Reads (arithmExpr fuel) (Mrsh.parens expr.written) rest expr := by
  obtain ⟨enough, reads⟩ := readBack.parens writable
  refine ⟨enough + 2, fun fuel large rest ends => ?_⟩
  obtain ⟨fuel, rfl⟩ : ∃ more, fuel = more + 2 := ⟨fuel - 2, by omega⟩
  exact term_reads (reads (fuel + 1) (by omega) rest) ends rfl (.inl rfl)

theorem isReadBack (expr : ArithmExpr) (writable : expr.IsWritable) : IsReadBack expr := by
  induction expr with
  | literal value =>
      obtain ⟨n, rfl⟩ := Int.eq_ofNat_of_zero_le writable.1
      refine ⟨2, fun fuel large rest ends => ?_⟩
      obtain ⟨fuel, rfl⟩ : ∃ more, fuel = more + 2 := ⟨fuel - 2, by omega⟩
      obtain ⟨c, more, digits⟩ := List.exists_cons_of_ne_nil (decimal_ne_nil n)
      have digit : c.isDigit = true := decimal_digits n c (by rw [digits]; exact List.mem_cons_self)
      have nameChar : (c == '_' || c.isAlphanum) = true := by simp [Char.isAlphanum, digit]
      have noName : nameLength false true (decimal n ++ rest) = 0 := by
        rw [digits]
        simp [nameLength, digit]
      refine term_reads (literal_reads writable.2 ends) ends ?_ (.inl noName)
      rw [ArithmExpr.written, digits]
      exact (nameChar_token nameChar (more ++ rest)).1
  | var name =>
      refine ⟨2, fun fuel large rest ends => ?_⟩
      obtain ⟨fuel, rfl⟩ : ∃ more, fuel = more + 2 := ⟨fuel - 2, by omega⟩
      have nameText := nameText writable (ends.nameLength false)
      refine term_reads (var_reads nameText) ends nameText.token (.inr ?_)
      rw [ArithmExpr.written, nameText.length, List.drop_left]
      rcases ends with rfl | ⟨more, rfl⟩ <;> rfl
  | unop type body ih =>
      obtain ⟨enough, reads⟩ := (ih writable).wholeParens writable
      refine ⟨enough + 2, fun fuel large rest ends => ?_⟩
      obtain ⟨fuel, rfl⟩ : ∃ more, fuel = more + 2 := ⟨fuel - 2, by omega⟩
      refine term_reads (unop_reads (reads (fuel + 1) (by omega) rest ends)) ends ?_ (.inl ?_)
      · cases type <;> rfl
      · cases type <;> rfl
  | binop type left right leftIh rightIh =>
      obtain ⟨leftEnough, leftReads⟩ := (leftIh writable.1).parens writable.1
      obtain ⟨rightEnough, rightReads⟩ := (rightIh writable.2).parens writable.2
      refine ⟨leftEnough + rightEnough + 3, fun fuel large rest ends => ?_⟩
      obtain ⟨fuel, rfl⟩ : ∃ more, fuel = more + 3 := ⟨fuel - 3, by omega⟩
      obtain ⟨stops, noQuestion⟩ := ends.stops
      obtain ⟨found, stopsBelow, visible⟩ := binopToken_level type (right.written ++ [')'] ++ rest)
      have leftLevel : Reads (levelParse (fuel + 2) (arithmExpr (fuel + 2)) 0) (parens left.written)
          ((binopToken type).str ++ (parens right.written ++ rest)) left :=
        leftReads (fuel + 2) (by omega) _
      have rightLevel : Reads (levelParse (fuel + 2) (arithmExpr (fuel + 2)) 0) (parens right.written) rest right :=
        rightReads (fuel + 2) (by omega) rest
      have below := binopLevel_bounded type
      have whole := (leftLevel.upTo (Nat.zero_le _) stopsBelow).binop
        (rightLevel.upTo (Nat.zero_le _) (stops.le (by omega))) found visible rfl (stops.le below)
      rw [binopToken_type] at whole
      exact arithmExpr_reads (ternary_reads (fuel + 1) (whole.upTo below stops) noQuestion) rfl (.inl rfl)
  | cond condition body elsePart conditionIh bodyIh elseIh =>
      obtain ⟨conditionEnough, conditionReads⟩ := (conditionIh writable.1).parens writable.1
      obtain ⟨bodyEnough, bodyReads⟩ := (bodyIh writable.2.1).parens writable.2.1
      obtain ⟨elseEnough, elseReads⟩ := (elseIh writable.2.2).parens writable.2.2
      refine ⟨conditionEnough + bodyEnough + elseEnough + 3, fun fuel large rest ends => ?_⟩
      obtain ⟨fuel, rfl⟩ : ∃ more, fuel = more + 3 := ⟨fuel - 3, by omega⟩
      obtain ⟨stops, noQuestion⟩ := ends.stops
      have level : ∀ {text rest expr}, Reads (arithmTerm (arithmExpr (fuel + 2))) text rest expr → Stops 10 rest →
          Reads (levelParse (fuel + 2) (arithmExpr (fuel + 2)) 10) text rest expr := by
        intro text rest expr reads stops
        have term : Reads (levelParse (fuel + 2) (arithmExpr (fuel + 2)) 0) text rest expr := reads
        exact term.upTo (Nat.zero_le 10) stops
      exact arithmExpr_reads (cond_reads fuel
        (level (conditionReads (fuel + 2) (by omega) _) (stops_of_char (.inr (.inl rfl)) _))
        (level (bodyReads (fuel + 2) (by omega) _) (stops_of_char (.inr (.inr rfl)) _))
        (level (elseReads (fuel + 2) (by omega) rest) stops) noQuestion) rfl (.inl rfl)
  | assign op name value ih =>
      obtain ⟨enough, reads⟩ := (ih writable.2).wholeParens writable.2
      refine ⟨enough + 1, fun fuel large rest ends => ?_⟩
      obtain ⟨fuel, rfl⟩ : ∃ more, fuel = more + 1 := ⟨fuel - 1, by omega⟩
      have opEnds : nameLength false false (assignStr op ++ (parens value.written ++ rest)) = 0 := by
        cases op <;> rfl
      exact assign_reads (nameText writable.1 opEnds) (assignStr_find op _) (reads fuel (by omega) rest ends)

/-- Every expression is read back from its text with all operands in parentheses, without an error. -/
theorem mrshParseArithmExpr_written (expr : ArithmExpr) (writable : expr.IsWritable) :
    ∃ enough, ∀ fuel, enough ≤ fuel →
      ∃ after, mrshParseArithmExpr fuel (mrshParserWithData expr.written) = .done (some expr) after ∧
        after.error = none := by
  obtain ⟨enough, reads⟩ := isReadBack expr writable
  refine ⟨enough, fun fuel large => ?_⟩
  let start := mrshParserWithData expr.written
  have scanning : Scanning (expr.written ++ []) start := by
    refine ⟨(List.append_nil _).symm, fun pending => ?_, rfl⟩
    cases pending
  obtain ⟨after, read, atEnd⟩ := reads fuel large [] (.inl rfl) start scanning
  have visible := scanning.visible (written_visible expr writable [])
  have peeked : charAt after.buf 0 = '\x00' := by
    rw [atEnd.buf]
    rfl
  refine ⟨after, ?_, atEnd.noError⟩
  rw [mrshParseArithmExpr, Run.bind_of_done visible]
  have next : parserPeekChar after = .done '\x00' after := by
    simp [parserPeekChar, parserPeekAt, peeked]
  apply (Run.bind_of_done read).trans
  apply (Run.bind_of_done next).trans
  rfl

/-- `x=(1)` is the assignment of 1 to x. -/
theorem mrshParseArithmExpr_written_assign : ∃ enough, ∀ fuel, enough ≤ fuel →
    ∃ after, mrshParseArithmExpr fuel (mrshParserWithData "x=(1)".toList) =
      .done (some (.assign .none ['x'] (.literal 1))) after ∧ after.error = none :=
  mrshParseArithmExpr_written (.assign .none ['x'] (.literal 1)) ⟨⟨by decide, by decide⟩, by decide, by decide⟩

end Mrsh
