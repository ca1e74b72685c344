import Mrsh.Parser.ArithmSoundness

namespace Mrsh

open Mrsh.Data

/-! # The tokens of an arithmetic text

The parser has no lexer, but its grammar agrees with one: the tokens of an expression are
the longest ones at their places. Which token may come at a place, and where no
whitespace may come after it, only depends on a few places.
-/

/-! ## The longest tokens -/

/-- The operators of more than one character, the longer ones first. -/
def longOperators : List Str :=
  [['<', '<', '='], ['>', '>', '='], ['<', '<'], ['>', '>'], ['<', '='], ['>', '='], ['=', '='], ['!', '='],
   ['&', '&'], ['|', '|'], ['*', '='], ['/', '='], ['%', '='], ['+', '='], ['-', '='], ['&', '='], ['^', '='],
   ['|', '=']]

def nameChar (c : Char) : Bool := c == '_' || c.isAlphanum

/-- The longest token that the text starts with. -/
def firstToken (text : Str) : Str :=
  if (charAt text 0).isDigit then text.takeWhile Char.isDigit
  else if nameChar (charAt text 0) then text.takeWhile nameChar
  else (longOperators.find? fun op => op.isPrefixOf text).getD (text.take 1)

def lexemesWithin : Nat → Str → List Lexeme
  | 0, _ => []
  | fuel + 1, text =>
      if text.isEmpty then []
      else
        let str := firstToken text
        let behind := text.drop str.length
        let gap := behind.takeWhile isSpace
        ⟨str, gap⟩ :: lexemesWithin fuel (behind.drop gap.length)

/-- The tokens of the text, with the whitespace after each of them. -/
def arithmLexemes (text : Str) : List Lexeme := lexemesWithin text.length (text.dropWhile isSpace)

/-- Every token is the longest one at its place, and all whitespace is in the gaps. -/
def Munched : List Lexeme → Prop
  | [] => True
  | lexeme :: rest =>
      lexeme.str ≠ [] ∧ firstToken (lexemesText (lexeme :: rest)) = lexeme.str ∧ IsGap lexeme.gap ∧
        isSpace (charAt (lexemesText rest) 0) = false ∧ Munched rest

theorem takeWhile_gap {gap rest : Str} (space : IsGap gap) (visible : isSpace (charAt rest 0) = false) :
    (gap ++ rest).takeWhile isSpace = gap := by
  rw [List.takeWhile_append_of_pos space]
  cases rest with
  | nil => simp
  | cons c rest =>
      have first : isSpace c = false := visible
      rw [List.takeWhile_cons_of_neg (by simp [first]), List.append_nil]

theorem dropWhile_gap {gap rest : Str} (space : IsGap gap) (visible : isSpace (charAt rest 0) = false) :
    (gap ++ rest).dropWhile isSpace = rest := by
  rw [List.dropWhile_append_of_pos space]
  cases rest with
  | nil => rfl
  | cons c more =>
      have first : isSpace c = false := visible
      rw [List.dropWhile_cons_of_neg (by simp [first])]

theorem Munched.lexemesWithin {lexemes : List Lexeme} (munched : Munched lexemes) {fuel : Nat}
    (enough : (lexemesText lexemes).length ≤ fuel) : Mrsh.lexemesWithin fuel (lexemesText lexemes) = lexemes := by
  induction lexemes generalizing fuel with
  | nil => cases fuel <;> rfl
  | cons lexeme rest ih =>
      obtain ⟨nonempty, token, space, visible, restMunched⟩ := munched
      obtain ⟨c, str, strIs⟩ := List.exists_cons_of_ne_nil nonempty
      have length : (lexemesText (lexeme :: rest)).length =
          lexeme.str.length + lexeme.gap.length + (lexemesText rest).length := by simp [Nat.add_assoc]
      have positive : 0 < lexeme.str.length := List.length_pos_of_ne_nil nonempty
      obtain ⟨fuel, rfl⟩ : ∃ less, fuel = less + 1 := ⟨fuel - 1, by omega⟩
      have full : (lexemesText (lexeme :: rest)).isEmpty = false := by rw [lexemesText_cons, strIs]; rfl
      have behind : (lexemesText (lexeme :: rest)).drop lexeme.str.length = lexeme.gap ++ lexemesText rest := by
        rw [lexemesText_cons, List.append_assoc, List.drop_left]
      rw [Mrsh.lexemesWithin, full, if_neg Bool.false_ne_true, token]
      dsimp only
      rw [behind, takeWhile_gap space visible, List.drop_left, ih restMunched (by omega)]

theorem Munched.arithmLexemes {lexemes : List Lexeme} (munched : Munched lexemes) {gap : Str} (space : IsGap gap)
    (visible : isSpace (charAt (lexemesText lexemes) 0) = false) :
    Mrsh.arithmLexemes (gap ++ lexemesText lexemes) = lexemes := by
  rw [Mrsh.arithmLexemes, dropWhile_gap space visible]
  exact munched.lexemesWithin (by simp)

/-! ## Places -/

/-- Where a token stands: where an operand starts, which may be a whole expression; behind a name that starts a whole
expression, with or without whitespace; behind any other operand. -/
inductive TokenPlace where
  | operand (whole : Bool)
  | name (spaced : Bool)
  | operator
deriving Repr, DecidableEq

def TokenPlace.Behind : TokenPlace → Prop
  | .operand _ => False
  | _ => True

/-- A token at a place of the grammar, with the place behind it. No whitespace comes after `==` and `!=`,
unary operators, `?` and `:`, assignment operators and the names before them, and parentheses around nothing. -/
inductive TokenStep : TokenPlace → Lexeme → TokenPlace → Prop where
  | openParen {whole : Bool} {gap : Str} (space : IsGap gap) : TokenStep (.operand whole) ⟨['('], gap⟩ (.operand true)
  | emptyPair {whole : Bool} : TokenStep (.operand whole) ⟨[')'], []⟩ (.operand false)
  | unop {whole : Bool} (type : ArithmUnopType) : TokenStep (.operand whole) ⟨[unopChar type], []⟩ (.operand true)
  | literal {whole : Bool} {digits gap : Str} (nonempty : digits ≠ []) (digit : ∀ c ∈ digits, c.isDigit = true)
      (space : IsGap gap) : TokenStep (.operand whole) ⟨digits, gap⟩ .operator
  | operandName {name gap : Str} (isName : ArithmExpr.IsWritable.IsName name) (space : IsGap gap) :
      TokenStep (.operand false) ⟨name, gap⟩ .operator
  | firstName {name gap : Str} (isName : ArithmExpr.IsWritable.IsName name) (space : IsGap gap) :
      TokenStep (.operand true) ⟨name, gap⟩ (.name (!gap.isEmpty))
  | closeParen {place : TokenPlace} {gap : Str} (behind : place.Behind) (space : IsGap gap) :
      TokenStep place ⟨[')'], gap⟩ .operator
  | binop {place : TokenPlace} {gap : Str} (type : ArithmBinopType) (behind : place.Behind) (space : IsGap gap)
      (tight : type = .deq ∨ type = .bangeq → gap = []) (unassigned : place = .name false → type ≠ .deq) :
      TokenStep place ⟨(binopToken type).str, gap⟩ (.operand false)
  | question {place : TokenPlace} (behind : place.Behind) : TokenStep place ⟨['?'], []⟩ (.operand false)
  | colon {place : TokenPlace} (behind : place.Behind) : TokenStep place ⟨[':'], []⟩ (.operand false)
  | assign (op : ArithmAssignOp) : TokenStep (.name false) ⟨assignStr op, []⟩ (.operand true)

/-- The tokens from a place to another. -/
inductive Scans : TokenPlace → List Lexeme → TokenPlace → Prop where
  | nil (place : TokenPlace) : Scans place [] place
  | cons {place next last : TokenPlace} {lexeme : Lexeme} {rest : List Lexeme} (step : TokenStep place lexeme next)
      (scans : Scans next rest last) : Scans place (lexeme :: rest) last

variable {place next last : TokenPlace} {lexemes others pairs : List Lexeme} {lexeme : Lexeme} {gap rest : Str}

theorem Scans.append (scans : Scans place lexemes next) (more : Scans next others last) :
    Scans place (lexemes ++ others) last := by
  induction scans with
  | nil place => exact more
  | cons step scans ih => exact .cons step (ih more)

theorem scans_append : Scans place (lexemes ++ others) last ↔ ∃ next, Scans place lexemes next ∧
    Scans next others last := by
  constructor
  · intro scans
    induction lexemes generalizing place with
    | nil => exact ⟨place, .nil place, scans⟩
    | cons lexeme lexemes ih =>
        cases scans with
        | cons step scans =>
            obtain ⟨middle, first, second⟩ := ih scans
            exact ⟨middle, .cons step first, second⟩
  · rintro ⟨middle, first, second⟩
    exact first.append second

theorem Scans.single (step : TokenStep place lexeme next) : Scans place [lexeme] next := .cons step (.nil next)

theorem TokenStep.space (step : TokenStep place lexeme next) : IsGap lexeme.gap := by
  cases step <;> first | assumption | exact isGap_nil

/-! ## Expressions are scanned -/

theorem EmptyPairs.scans_any (empty : EmptyPairs pairs) :
    pairs = [] ∨ ∀ whole, Scans (.operand whole) pairs (.operand false) := by
  induction empty with
  | nothing => exact .inl rfl
  | pair space inside ih =>
      refine .inr fun whole => .cons (.openParen space) ?_
      rcases ih with rfl | scans
      · exact .single .emptyPair
      · exact (scans true).append (.single .emptyPair)

theorem EmptyPairs.scans (empty : EmptyPairs pairs) : Scans (.operand false) pairs (.operand false) := by
  rcases empty.scans_any with rfl | scans
  · exact .nil _
  · exact scans false

theorem levelOps_type {level : Nat} {op : OpToken} (member : op ∈ levelOps level) :
    (binopToken op.type).str = op.str ∧ (op.type = .deq ∨ op.type = .bangeq → level = 5) := by
  match level with
  | 0 => simp [levelOps] at member
  | 1 | 2 | 3 | 4 | 5 | 6 | 7 | 8 | 9 | 10 =>
      simp only [levelOps, List.mem_cons, List.not_mem_nil, or_false] at member
      rcases member with rfl | rfl | rfl | rfl | rfl <;> exact ⟨rfl, by decide⟩
  | _ + 11 => simp [levelOps] at member

theorem TokenStep.level {level : Nat} {op : OpToken} (member : op ∈ levelOps level) (space : IsGap gap)
    (tight : level = 5 → gap = []) : TokenStep .operator ⟨op.str, gap⟩ (.operand false) := by
  obtain ⟨str, level5⟩ := levelOps_type member
  rw [← str]
  exact .binop op.type trivial space (fun compares => tight (level5 compares)) (by simp)

/-- How the tokens of a part are scanned. A part that is not open ends behind a simple operand. -/
def PartScans (isOpen : Bool) (lexemes : List Lexeme) : ExprPart → Prop
  | .whole => ∃ last, Scans (.operand true) lexemes last ∧ last.Behind
  | .more level _ =>
      level < 2 → ∃ last, Scans .operator lexemes last ∧ last.Behind ∧ (isOpen = false → last = .operator)
  | _ => ∃ last, Scans (.operand false) lexemes last ∧ last.Behind ∧ (isOpen = false → last = .operator)

theorem Scans.fromWhole (scans : Scans (.operand false) lexemes last) (behind : last.Behind)
    (uncompared : ¬ ComparedName lexemes) : ∃ other, Scans (.operand true) lexemes other ∧ other.Behind := by
  cases scans with
  | nil => exact absurd behind id
  | cons step scans =>
      cases step with
      | openParen space => exact ⟨last, .cons (.openParen space) scans, behind⟩
      | emptyPair => exact ⟨last, .cons .emptyPair scans, behind⟩
      | unop type => exact ⟨last, .cons (.unop type) scans, behind⟩
      | literal nonempty digit space => exact ⟨last, .cons (.literal nonempty digit space) scans, behind⟩
      | closeParen absurdly => exact absurd absurdly id
      | binop _ absurdly => exact absurd absurdly id
      | question absurdly => exact absurd absurdly id
      | colon absurdly => exact absurd absurdly id
      | @operandName name gap isName space =>
          cases scans with
          | nil => exact ⟨_, .single (.firstName isName space), trivial⟩
          | cons step scans =>
              refine ⟨last, .cons (.firstName isName space) (.cons ?_ scans), behind⟩
              cases step with
              | closeParen _ space => exact .closeParen trivial space
              | question => exact .question trivial
              | colon => exact .colon trivial
              | @binop _ gapAfter type _ spaceAfter tight _ =>
                  refine .binop type trivial spaceAfter tight fun unspaced compares => uncompared ?_
                  subst compares
                  cases gap with
                  | nil => exact ⟨name, gapAfter, _, isName, rfl⟩
                  | cons c gap => cases unspaced

theorem Phrase.scans {clean isOpen : Bool} {part : ExprPart} {expr : ArithmExpr}
    (phrase : Phrase clean part isOpen lexemes expr) : PartScans isOpen lexemes part := by
  induction phrase with
  | literal empty isClean nonempty digit scanned space =>
      exact ⟨_, empty.scans.append (.single (.literal nonempty digit space)), trivial, fun _ => rfl⟩
  | var empty isClean isName space =>
      exact ⟨_, empty.scans.append (.single (.operandName isName space)), trivial, fun _ => rfl⟩
  | unop type empty isClean operand ih =>
      obtain ⟨last, scans, behind⟩ := ih
      exact ⟨last, empty.scans.append (.cons (.unop type) scans), behind, Bool.noConfusion⟩
  | paren space spaceAfter inside ih =>
      obtain ⟨last, scans, behind⟩ := ih
      exact ⟨_, .cons (.openParen space) (scans.append (.single (.closeParen behind spaceAfter))), trivial,
        fun _ => rfl⟩
  | @chain level isOpen restOpen lexemes rest first expr low operand continues closed ih restIh =>
      obtain ⟨middle, scans, behind, atOperator⟩ := ih
      obtain ⟨last, restScans, restBehind, restAtOperator⟩ := restIh low
      cases isOpen with
      | true =>
          obtain rfl := closed rfl
          rw [List.append_nil]
          exact ⟨middle, scans, behind, Bool.noConfusion⟩
      | false =>
          rw [atOperator rfl] at scans
          exact ⟨last, scans.append restScans, restBehind, restAtOperator⟩
  | done left => exact fun _ => ⟨_, .nil _, trivial, fun _ => rfl⟩
  | @more level op gap isOpen restOpen lexemes rest left right expr member space operand continues closed ih restIh =>
      intro low
      obtain ⟨middle, scans, behind, atOperator⟩ := ih
      obtain ⟨last, restScans, restBehind, restAtOperator⟩ := restIh low
      have step : TokenStep .operator ⟨op.str, gap⟩ (.operand false) := .level member space fun same => by omega
      cases isOpen with
      | true =>
          obtain rfl := closed rfl
          rw [List.append_nil]
          exact ⟨middle, .cons step scans, behind, Bool.noConfusion⟩
      | false =>
          rw [atOperator rfl] at scans
          exact ⟨last, .cons step (scans.append restScans), restBehind, restAtOperator⟩
  | up high bounded operand ih => exact ih
  | binop high bounded member space skipped operand operands ih othersIh =>
      obtain ⟨middle, scans, behind, atOperator⟩ := ih
      obtain ⟨last, othersScans, othersBehind, othersAtOperator⟩ := othersIh
      rw [atOperator rfl] at scans
      exact ⟨last, scans.append (.cons (.level member space skipped) othersScans), othersBehind, othersAtOperator⟩
  | value operand ih => exact ih
  | cond operand chosen otherwise ih chosenIh otherwiseIh =>
      obtain ⟨middle, scans, behind, atOperator⟩ := ih
      obtain ⟨atColon, chosenScans, chosenBehind, -⟩ := chosenIh
      obtain ⟨last, otherwiseScans, otherwiseBehind, otherwiseAtOperator⟩ := otherwiseIh
      exact ⟨last, scans.append (.cons (.question behind) (chosenScans.append
        (.cons (.colon chosenBehind) otherwiseScans))), otherwiseBehind, otherwiseAtOperator⟩
  | whole inside uncompared ih =>
      obtain ⟨last, scans, behind, -⟩ := ih
      exact scans.fromWhole behind uncompared
  | assign op isName assigned ih =>
      obtain ⟨last, scans, behind⟩ := ih
      exact ⟨last, .cons (.firstName isName isGap_nil) (.cons (.assign op) scans), behind⟩

/-! ## The tokens are the longest ones -/

/-- How the next token starts: an operand where one is expected, and otherwise nothing that prolongs a
name or number. -/
def TokenPlace.NextStarts (strs : List Str) : TokenPlace → Prop
  | .operand _ => ∃ c str more, strs = (c :: str) :: more ∧ PlainChar c ∧ isSpace c = false
  | _ => strs = [] ∨ ∃ c str more, strs = (c :: str) :: more ∧ nameChar c = false ∧ isSpace c = false

theorem operandChar_starts {c : Char} (operand : operandChar c = true) (str : Str) (more : List Str) (whole : Bool) :
    (TokenPlace.operand whole).NextStarts ((c :: str) :: more) :=
  ⟨c, str, more, rfl, operandChar_plain operand, operandChar_visible operand⟩

theorem TokenStep.nextStarts (step : TokenStep place lexeme next) (more : List Str) :
    place.NextStarts (lexeme.str :: more) := by
  have behindStarts : ∀ {place : TokenPlace} {c : Char} {str : Str}, place.Behind → nameChar c = false →
    isSpace c = false →
      place.NextStarts ((c :: str) :: more) := by
    intro place c str behind noName visible
    cases place with
    | operand => exact absurd behind id
    | name => exact .inr ⟨c, str, more, rfl, noName, visible⟩
    | operator => exact .inr ⟨c, str, more, rfl, noName, visible⟩
  cases step with
  | openParen => exact operandChar_starts rfl [] more _
  | emptyPair => exact ⟨')', [], more, rfl, by constructor <;> decide, rfl⟩
  | unop type => exact operandChar_starts (by cases type <;> rfl) [] more _
  | @literal _ digits _ nonempty digit =>
      obtain ⟨c, str, rfl⟩ := List.exists_cons_of_ne_nil nonempty
      exact operandChar_starts (nameChar_operand (by simp [Char.isAlphanum, digit c List.mem_cons_self])) str more _
  | @operandName name _ isName =>
      obtain ⟨c, str, rfl⟩ := List.exists_cons_of_ne_nil isName.1
      exact operandChar_starts (nameChar_operand (nameLength_chars true _ isName.2 c List.mem_cons_self)) str more _
  | @firstName name _ isName =>
      obtain ⟨c, str, rfl⟩ := List.exists_cons_of_ne_nil isName.1
      exact operandChar_starts (nameChar_operand (nameLength_chars true _ isName.2 c List.mem_cons_self)) str more _
  | closeParen behind => exact behindStarts behind rfl rfl
  | binop type behind => cases type <;> exact behindStarts behind rfl rfl
  | question behind => exact behindStarts behind rfl rfl
  | colon behind => exact behindStarts behind rfl rfl
  | assign op => cases op <;> exact .inr ⟨_, _, _, rfl, rfl, rfl⟩

theorem Scans.nextStarts (scans : Scans place lexemes last) (behind : last.Behind) :
    place.NextStarts (lexemes.map (·.str)) := by
  cases scans with
  | nil =>
      cases place with
      | operand => exact absurd behind id
      | name => exact .inl rfl
      | operator => exact .inl rfl
  | cons step scans => exact step.nextStarts _

/-- The text does not go on with a character of a name. -/
def NoNameChar (text : Str) : Prop := ∀ c more, text = c :: more → nameChar c = false

theorem takeWhile_chars {p : Char → Bool} {str rest : Str} (chars : ∀ c ∈ str, p c = true)
    (ends : ∀ c more, rest = c :: more → p c = false) : (str ++ rest).takeWhile p = str := by
  rw [List.takeWhile_append_of_pos chars]
  cases rest with
  | nil => simp
  | cons c more => rw [List.takeWhile_cons_of_neg (by simp [ends c more rfl]), List.append_nil]

theorem firstToken_digits {digits : Str} (nonempty : digits ≠ []) (digit : ∀ c ∈ digits, c.isDigit = true)
    (ends : NoNameChar rest) : firstToken (digits ++ rest) = digits := by
  obtain ⟨c, str, rfl⟩ := List.exists_cons_of_ne_nil nonempty
  have first : (charAt (c :: str ++ rest) 0).isDigit = true := digit c List.mem_cons_self
  rw [firstToken, if_pos first]
  refine takeWhile_chars digit fun d more same => ?_
  have noName := ends d more same
  simp only [nameChar, Char.isAlphanum, Bool.or_eq_false_iff] at noName
  exact noName.2.2

theorem firstToken_name {name : Str} (isName : ArithmExpr.IsWritable.IsName name) (ends : NoNameChar rest) :
    firstToken (name ++ rest) = name := by
  have chars := nameLength_chars true _ isName.2
  obtain ⟨c, str, rfl⟩ := List.exists_cons_of_ne_nil isName.1
  have first : nameChar c = true := chars c List.mem_cons_self
  have notDigit : c.isDigit = false := by
    have whole := isName.2
    rw [nameLength] at whole
    cases digit : c.isDigit with
    | false => rfl
    | true => simp [digit] at whole
  have start : charAt (c :: str ++ rest) 0 = c := rfl
  rw [firstToken, start, notDigit, if_neg Bool.false_ne_true, first, if_pos rfl]
  exact takeWhile_chars chars ends

theorem firstToken_unop (type : ArithmUnopType) {c : Char} (plain : PlainChar c) (more : Str) :
    firstToken (unopChar type :: c :: more) = [unopChar type] := by
  have equals := isPrefixOf_cons_ne plain.notEquals
  cases type <;> simp [firstToken, charAt, nameChar, unopChar, longOperators, equals]

theorem firstToken_binop (type : ArithmBinopType) {c : Char} (plain : PlainChar c) (more : Str) :
    firstToken ((binopToken type).str ++ c :: more) = (binopToken type).str := by
  have equals := isPrefixOf_cons_ne plain.notEquals
  have less := isPrefixOf_cons_ne plain.notLess
  have great := isPrefixOf_cons_ne plain.notGreat
  have bar := isPrefixOf_cons_ne plain.notBar
  have ampersand := isPrefixOf_cons_ne plain.notAmpersand
  cases type <;>
    simp [firstToken, charAt, nameChar, binopToken, longOperators, equals, less, great, bar, ampersand]

theorem firstToken_assign (op : ArithmAssignOp) {c : Char} (plain : PlainChar c) (more : Str) :
    firstToken (assignStr op ++ c :: more) = assignStr op := by
  have equals := isPrefixOf_cons_ne plain.notEquals
  cases op <;> simp [firstToken, charAt, nameChar, assignStr, longOperators, equals]

theorem gap_plain (space : IsGap gap) {c : Char} {more : Str} (plain : PlainChar c) :
    ∃ d others, gap ++ c :: more = d :: others ∧ PlainChar d := by
  cases gap with
  | nil => exact ⟨c, more, rfl, plain⟩
  | cons d gap => exact ⟨d, gap ++ c :: more, rfl, space_plain (space d List.mem_cons_self)⟩

theorem space_noName {c : Char} (space : isSpace c = true) : nameChar c = false := by
  cases name : nameChar c with
  | false => rfl
  | true =>
      rw [(nameChar_token name []).2.1] at space
      cases space

theorem TokenPlace.NextStarts.text {strs : List Str} (starts : place.NextStarts strs)
    (same : lexemes.map (·.str) = strs)
    (space : IsGap gap) :
    isSpace (charAt (lexemesText lexemes) 0) = false ∧
      (¬ place.Behind → ∃ c more, gap ++ lexemesText lexemes = c :: more ∧ PlainChar c) ∧
        (place.Behind → NoNameChar (gap ++ lexemesText lexemes)) := by
  have first : ∀ {c : Char} {str : Str} {more : List Str}, strs = (c :: str) :: more →
      ∃ others, lexemesText lexemes = c :: others := by
    intro c str more strsIs
    rw [strsIs, List.map_eq_cons_iff] at same
    obtain ⟨lexeme, rest, rfl, strIs, -⟩ := same
    exact ⟨str ++ lexeme.gap ++ lexemesText rest, by rw [lexemesText_cons, strIs]; rfl⟩
  have behindStarts : (strs = [] ∨ ∃ c str more, strs = (c :: str) :: more ∧ nameChar c = false ∧ isSpace c = false) →
      isSpace (charAt (lexemesText lexemes) 0) = false ∧ NoNameChar (gap ++ lexemesText lexemes) := by
    rintro (rfl | ⟨c, str, more, strsIs, noName, visible⟩)
    · obtain rfl := List.map_eq_nil_iff.mp same
      refine ⟨rfl, fun c more start => ?_⟩
      rw [lexemesText_nil, List.append_nil] at start
      rw [start] at space
      exact space_noName (space c List.mem_cons_self)
    · obtain ⟨others, text⟩ := first strsIs
      rw [text]
      refine ⟨visible, fun d more start => ?_⟩
      cases gap with
      | nil =>
          cases start
          exact noName
      | cons e gap =>
          cases start
          exact space_noName (space _ List.mem_cons_self)
  cases place with
  | operand whole =>
      obtain ⟨c, str, more, strsIs, plain, visible⟩ := starts
      obtain ⟨others, text⟩ := first strsIs
      rw [text]
      refine ⟨visible, fun _ => gap_plain space plain, fun behind => absurd behind id⟩
  | name spaced =>
      exact ⟨(behindStarts starts).1, fun absurdly => absurd trivial absurdly, fun _ => (behindStarts starts).2⟩
  | operator =>
      exact ⟨(behindStarts starts).1, fun absurdly => absurd trivial absurdly, fun _ => (behindStarts starts).2⟩

theorem TokenStep.firstToken (step : TokenStep place lexeme next)
    (plain : ¬ next.Behind → ∃ c more, rest = c :: more ∧ PlainChar c) (ends : next.Behind → NoNameChar rest) :
    lexeme.str ≠ [] ∧ Mrsh.firstToken (lexeme.str ++ rest) = lexeme.str := by
  cases step with
  | openParen => exact ⟨by simp, by simp [Mrsh.firstToken, charAt, nameChar, longOperators]⟩
  | emptyPair => exact ⟨by simp, by simp [Mrsh.firstToken, charAt, nameChar, longOperators]⟩
  | unop type =>
      obtain ⟨c, more, rfl, plainChar⟩ := plain id
      exact ⟨by simp, firstToken_unop type plainChar more⟩
  | literal nonempty digit => exact ⟨nonempty, firstToken_digits nonempty digit (ends trivial)⟩
  | operandName isName => exact ⟨isName.1, firstToken_name isName (ends trivial)⟩
  | firstName isName => exact ⟨isName.1, firstToken_name isName (ends trivial)⟩
  | closeParen => exact ⟨by simp, by simp [Mrsh.firstToken, charAt, nameChar, longOperators]⟩
  | binop type =>
      obtain ⟨c, more, rfl, plainChar⟩ := plain id
      exact ⟨by cases type <;> simp [binopToken], firstToken_binop type plainChar more⟩
  | question => exact ⟨by simp, by simp [Mrsh.firstToken, charAt, nameChar, longOperators]⟩
  | colon => exact ⟨by simp, by simp [Mrsh.firstToken, charAt, nameChar, longOperators]⟩
  | assign op =>
      obtain ⟨c, more, rfl, plainChar⟩ := plain id
      exact ⟨by cases op <;> simp [assignStr], firstToken_assign op plainChar more⟩

/-- The tokens that are scanned are the longest ones, with any whitespace between them. -/
theorem Scans.munched (scans : Scans place lexemes last) (behind : last.Behind)
    (same : others.map (·.str) = lexemes.map (·.str)) (gapped : Gapped others) : Munched others := by
  induction scans generalizing others with
  | nil =>
      obtain rfl := List.map_eq_nil_iff.mp same
      trivial
  | @cons place next last lexeme rest step scans ih =>
      rw [List.map_cons, List.map_eq_cons_iff] at same
      obtain ⟨other, more, rfl, strIs, restSame⟩ := same
      rw [gapped_cons] at gapped
      obtain ⟨visible, plain, ends⟩ := (scans.nextStarts behind).text restSame gapped.1
      obtain ⟨nonempty, token⟩ := step.firstToken plain ends
      refine ⟨by rw [strIs]; exact nonempty, ?_, gapped.1, visible, ih behind restSame gapped.2⟩
      rw [lexemesText_cons, List.append_assoc, strIs]
      exact token

theorem Scans.visible (scans : Scans place lexemes last) (behind : last.Behind)
    (same : others.map (·.str) = lexemes.map (·.str)) : isSpace (charAt (lexemesText others) 0) = false :=
  ((scans.nextStarts behind).text same isGap_nil).1

end Mrsh
