import Mathlib.Tactic.IntervalCases
import Mrsh.Parser.ArithmText

namespace Mrsh

open Mrsh.Data

/-! # The arithmetic grammar

The texts that the arithmetic parser reads without an error, as sequences of
tokens with the whitespace after each of them. A level is a chain of operators
between operands of the level below, read from the left for the two lowest ones,
and from the right for the others. Whitespace is skipped after most tokens.

The grammar has one oddity: pairs of parentheses with nothing inside are read
and forgotten before a number, a name or an unary operator. A phrase is clean if
it has none of them.
-/

def IsGap (gap : Str) : Prop := ∀ c ∈ gap, isSpace c = true

instance (gap : Str) : Decidable (IsGap gap) := inferInstanceAs (Decidable (∀ c ∈ gap, isSpace c = true))

/-- A token and the whitespace after it. -/
structure Lexeme where
  str : Str
  gap : Str
deriving Repr, DecidableEq

def lexemesText (lexemes : List Lexeme) : Str := lexemes.flatMap fun lexeme => lexeme.str ++ lexeme.gap

@[simp] theorem lexemesText_nil : lexemesText [] = [] := rfl

@[simp] theorem lexemesText_cons (lexeme : Lexeme) (lexemes : List Lexeme) :
    lexemesText (lexeme :: lexemes) = lexeme.str ++ lexeme.gap ++ lexemesText lexemes := rfl

@[simp] theorem lexemesText_append (lexemes others : List Lexeme) :
    lexemesText (lexemes ++ others) = lexemesText lexemes ++ lexemesText others := by
  simp [lexemesText]

/-- Parentheses around nothing. -/
inductive EmptyPairs : List Lexeme → Prop where
  | nothing : EmptyPairs []
  | pair {gap : Str} {inside : List Lexeme} (space : IsGap gap) (pairs : EmptyPairs inside) :
      EmptyPairs (⟨['('], gap⟩ :: (inside ++ [⟨[')'], []⟩]))

/-- A part of an expression. -/
inductive ExprPart where
  | level (level : Nat)
  /-- What a level reads after its first operands. -/
  | more (level : Nat) (left : ArithmExpr)
  | conditional
  | whole

/-- A name, directly followed by `==`. -/
def ComparedName (lexemes : List Lexeme) : Prop :=
  ∃ name gap more, ArithmExpr.IsWritable.IsName name ∧ lexemes = ⟨name, []⟩ :: ⟨['=', '='], gap⟩ :: more

/-- The tokens of a part of an expression. A part is open if it ends with an unary operation, which goes on as far as
it can. -/
inductive Phrase (clean : Bool) : ExprPart → Bool → List Lexeme → ArithmExpr → Prop where
  | literal {pairs : List Lexeme} {digits gap : Str} {value : Int} (empty : EmptyPairs pairs)
      (isClean : clean = true → pairs = []) (nonempty : digits ≠ []) (digit : ∀ c ∈ digits, c.isDigit = true)
      (scanned : strtol 0 digits = ⟨value, [], false⟩) (space : IsGap gap) :
      Phrase clean (.level 0) false (pairs ++ [⟨digits, gap⟩]) (.literal value)
  | var {pairs : List Lexeme} {name gap : Str} (empty : EmptyPairs pairs) (isClean : clean = true → pairs = [])
      (isName : ArithmExpr.IsWritable.IsName name) (space : IsGap gap) :
      Phrase clean (.level 0) false (pairs ++ [⟨name, gap⟩]) (.var name)
  | unop {pairs lexemes : List Lexeme} {isOpen : Bool} {body : ArithmExpr} (type : ArithmUnopType)
      (empty : EmptyPairs pairs) (isClean : clean = true → pairs = [])
      (operand : Phrase clean .whole isOpen lexemes body) :
      Phrase clean (.level 0) true (pairs ++ ⟨[unopChar type], []⟩ :: lexemes) (.unop type body)
  | paren {gap gapAfter : Str} {lexemes : List Lexeme} {isOpen : Bool} {expr : ArithmExpr} (space : IsGap gap)
      (spaceAfter : IsGap gapAfter) (inside : Phrase clean .whole isOpen lexemes expr) :
      Phrase clean (.level 0) false (⟨['('], gap⟩ :: (lexemes ++ [⟨[')'], gapAfter⟩])) expr
  | chain {level : Nat} {isOpen restOpen : Bool} {lexemes rest : List Lexeme} {first expr : ArithmExpr}
      (low : level < 2) (operand : Phrase clean (.level level) isOpen lexemes first)
      (continues : Phrase clean (.more level first) restOpen rest expr) (closed : isOpen = true → rest = []) :
      Phrase clean (.level (level + 1)) (isOpen || restOpen) (lexemes ++ rest) expr
  | done {level : Nat} (left : ArithmExpr) : Phrase clean (.more level left) false [] left
  | more {level : Nat} {op : OpToken} {gap : Str} {isOpen restOpen : Bool} {lexemes rest : List Lexeme}
      {left right expr : ArithmExpr} (member : op ∈ levelOps (level + 1)) (space : IsGap gap)
      (operand : Phrase clean (.level level) isOpen lexemes right)
      (continues : Phrase clean (.more level (.binop op.type left right)) restOpen rest expr)
      (closed : isOpen = true → rest = []) :
      Phrase clean (.more level left) (isOpen || restOpen) (⟨op.str, gap⟩ :: (lexemes ++ rest)) expr
  | up {level : Nat} {isOpen : Bool} {lexemes : List Lexeme} {expr : ArithmExpr} (high : 2 ≤ level)
      (bounded : level < 10) (operand : Phrase clean (.level level) isOpen lexemes expr) :
      Phrase clean (.level (level + 1)) isOpen lexemes expr
  | binop {level : Nat} {op : OpToken} {gap : Str} {isOpen : Bool} {lexemes others : List Lexeme}
      {left right : ArithmExpr} (high : 2 ≤ level) (bounded : level < 10) (member : op ∈ levelOps (level + 1))
      (space : IsGap gap) (skipped : level + 1 = 5 → gap = [])
      (operand : Phrase clean (.level level) false lexemes left)
      (operands : Phrase clean (.level (level + 1)) isOpen others right) :
      Phrase clean (.level (level + 1)) isOpen (lexemes ++ ⟨op.str, gap⟩ :: others) (.binop op.type left right)
  | value {isOpen : Bool} {lexemes : List Lexeme} {expr : ArithmExpr}
      (operand : Phrase clean (.level 10) isOpen lexemes expr) : Phrase clean .conditional isOpen lexemes expr
  | cond {bodyOpen elseOpen : Bool} {lexemes bodyLexemes elseLexemes : List Lexeme}
      {condition body elsePart : ArithmExpr} (operand : Phrase clean (.level 10) false lexemes condition)
      (chosen : Phrase clean .conditional bodyOpen bodyLexemes body)
      (otherwise : Phrase clean .conditional elseOpen elseLexemes elsePart) :
      Phrase clean .conditional elseOpen
        (lexemes ++ ⟨['?'], []⟩ :: (bodyLexemes ++ ⟨[':'], []⟩ :: elseLexemes)) (.cond condition body elsePart)
  | whole {isOpen : Bool} {lexemes : List Lexeme} {expr : ArithmExpr}
      (inside : Phrase clean .conditional isOpen lexemes expr) (unassigned : ¬ ComparedName lexemes) :
      Phrase clean .whole true lexemes expr
  | assign {name : Str} {isOpen : Bool} {lexemes : List Lexeme} {value : ArithmExpr} (op : ArithmAssignOp)
      (isName : ArithmExpr.IsWritable.IsName name) (assigned : Phrase clean .whole isOpen lexemes value) :
      Phrase clean .whole true (⟨name, []⟩ :: ⟨assignStr op, []⟩ :: lexemes) (.assign op name value)

/-- The text is an expression, with whitespace before it. -/
def IsExpression (clean : Bool) (text : Str) (expr : ArithmExpr) : Prop :=
  ∃ gap isOpen lexemes, IsGap gap ∧ Phrase clean .whole isOpen lexemes expr ∧ text = gap ++ lexemesText lexemes

/-! ## Gaps -/

/-- Only whitespace is between the tokens. -/
def Gapped (lexemes : List Lexeme) : Prop := ∀ lexeme ∈ lexemes, IsGap lexeme.gap

instance (lexemes : List Lexeme) : Decidable (Gapped lexemes) :=
  inferInstanceAs (Decidable (∀ lexeme ∈ lexemes, IsGap lexeme.gap))

theorem isGap_nil : IsGap [] := by
  intro c member
  cases member

@[simp] theorem gapped_nil : Gapped [] := by
  intro lexeme member
  cases member

@[simp] theorem gapped_cons {lexeme : Lexeme} {lexemes : List Lexeme} :
    Gapped (lexeme :: lexemes) ↔ IsGap lexeme.gap ∧ Gapped lexemes := List.forall_mem_cons

@[simp] theorem gapped_append {lexemes others : List Lexeme} :
    Gapped (lexemes ++ others) ↔ Gapped lexemes ∧ Gapped others := List.forall_mem_append

theorem EmptyPairs.gapped {pairs : List Lexeme} (empty : EmptyPairs pairs) : Gapped pairs := by
  induction empty with
  | nothing => exact gapped_nil
  | pair space inside ih => simp [space, ih, isGap_nil]

theorem Phrase.gapped {clean isOpen : Bool} {part : ExprPart} {lexemes : List Lexeme} {expr : ArithmExpr}
    (phrase : Phrase clean part isOpen lexemes expr) : Gapped lexemes := by
  induction phrase with
  | literal empty isClean nonempty digit scanned space => simp [empty.gapped, space]
  | var empty isClean isName space => simp [empty.gapped, space]
  | unop type empty isClean operand ih => simp [empty.gapped, ih, isGap_nil]
  | paren space spaceAfter inside ih => simp [space, spaceAfter, ih]
  | chain low operand continues closed ih restIh => simp [ih, restIh]
  | done left => exact gapped_nil
  | more member space operand continues closed ih restIh => simp [space, ih, restIh]
  | up high bounded operand ih => exact ih
  | binop high bounded member space skipped operand operands ih othersIh => simp [space, ih, othersIh]
  | value operand ih => exact ih
  | cond operand chosen otherwise ih chosenIh otherwiseIh => simp [ih, chosenIh, otherwiseIh, isGap_nil]
  | whole inside unassigned ih => exact ih
  | assign op isName assigned ih => simp [ih, isGap_nil]

/-! ## Where the parts of an expression start -/

/-- A character that an operand starts with. -/
def operandChar (c : Char) : Bool := c == '(' || (unopType c).isSome || c == '_' || c.isAlphanum

/-- The tokens start with an operand. Only a name starts with a character that a name can start with. -/
def StartsOperand (lexemes : List Lexeme) : Prop :=
  ∃ c str gap more, lexemes = ⟨c :: str, gap⟩ :: more ∧ operandChar c = true ∧
    (nameLength false true [c] = 0 ∨ ArithmExpr.IsWritable.IsName (c :: str))

theorem StartsOperand.append {lexemes : List Lexeme} (starts : StartsOperand lexemes) (others : List Lexeme) :
    StartsOperand (lexemes ++ others) := by
  obtain ⟨c, str, gap, more, rfl, operand⟩ := starts
  exact ⟨c, str, gap, more ++ others, rfl, operand⟩

theorem EmptyPairs.starts {pairs : List Lexeme} (empty : EmptyPairs pairs) {lexemes : List Lexeme}
    (starts : StartsOperand lexemes) : StartsOperand (pairs ++ lexemes) := by
  cases empty with
  | nothing => exact starts
  | pair space inside => exact ⟨'(', [], _, _, rfl, rfl, .inl rfl⟩

theorem nameChar_operand {c : Char} (nameChar : (c == '_' || c.isAlphanum) = true) : operandChar c = true := by
  rw [operandChar, Bool.or_assoc, nameChar, Bool.or_true]

theorem isName_starts {name : Str} (isName : ArithmExpr.IsWritable.IsName name) (gap : Str) (more : List Lexeme) :
    StartsOperand (⟨name, gap⟩ :: more) := by
  obtain ⟨c, str, rfl⟩ := List.exists_cons_of_ne_nil isName.1
  exact ⟨c, str, gap, more, rfl, nameChar_operand (nameLength_chars true _ isName.2 c List.mem_cons_self), .inr isName⟩

theorem Phrase.starts {clean isOpen : Bool} {part : ExprPart} {lexemes : List Lexeme} {expr : ArithmExpr}
    (phrase : Phrase clean part isOpen lexemes expr) (notMore : ∀ level left, part ≠ .more level left) :
    StartsOperand lexemes := by
  induction phrase with
  | literal empty _ nonempty digit =>
      apply empty.starts
      obtain ⟨c, str, rfl⟩ := List.exists_cons_of_ne_nil nonempty
      have first : c.isDigit = true := digit c List.mem_cons_self
      exact ⟨c, str, _, _, rfl, nameChar_operand (by simp [Char.isAlphanum, first]), .inl (by simp [nameLength, first])⟩
  | var empty _ isName => exact empty.starts (isName_starts isName _ _)
  | unop type empty =>
      apply empty.starts
      exact ⟨_, [], _, _, rfl, by simp [operandChar, unopType_unopChar], .inl (by cases type <;> rfl)⟩
  | paren => exact ⟨'(', [], _, _, rfl, rfl, .inl rfl⟩
  | chain low operand continues closed operandStarts => exact (operandStarts (by simp)).append _
  | done left => exact absurd rfl (notMore _ left)
  | more => exact absurd rfl (notMore _ _)
  | up high bounded operand operandStarts => exact operandStarts (by simp)
  | binop high bounded member space skipped operand operands operandStarts =>
      exact (operandStarts (by simp)).append _
  | value operand operandStarts => exact operandStarts (by simp)
  | cond operand chosen otherwise operandStarts => exact (operandStarts (by simp)).append _
  | whole inside unassigned insideStarts => exact insideStarts (by simp)
  | assign op isName assigned => exact isName_starts isName _ _

/-! ## What comes after a name -/

/-- The tokens after an operand: none, or an operator and another operand. -/
def FollowsOperand (lexemes : List Lexeme) : Prop :=
  lexemes = [] ∨ ∃ str gap more, lexemes = ⟨str, gap⟩ :: more ∧ IsGap gap ∧ StartsOperand more ∧
    (str = ['?'] ∨ ∃ level op, op ∈ levelOps level ∧ str = op.str)

theorem FollowsOperand.append {lexemes others : List Lexeme} (follows : FollowsOperand lexemes)
    (othersFollow : FollowsOperand others) : FollowsOperand (lexemes ++ others) := by
  rcases follows with rfl | ⟨str, gap, more, rfl, space, starts, operator⟩
  · exact othersFollow
  · exact .inr ⟨str, gap, more ++ others, rfl, space, starts.append others, operator⟩

/-- What comes after a name that the tokens start with. -/
def NameFollowed (lexemes : List Lexeme) : Prop :=
  ∀ name gap more, ArithmExpr.IsWritable.IsName name → lexemes = ⟨name, gap⟩ :: more → FollowsOperand more

theorem NameFollowed.append {lexemes others : List Lexeme} (followed : NameFollowed lexemes)
    (starts : StartsOperand lexemes) (othersFollow : FollowsOperand others) : NameFollowed (lexemes ++ others) := by
  obtain ⟨c, str, gap, more, rfl, -⟩ := starts
  rintro name gap' rest isName ⟨⟩
  exact (followed _ gap more isName rfl).append othersFollow

theorem not_nameFollowed {c : Char} {str gap : Str} {more : List Lexeme} (other : (c == '_' || c.isAlphanum) = false) :
    NameFollowed (⟨c :: str, gap⟩ :: more) := by
  rintro name gap' rest isName ⟨⟩
  have nameChar := nameLength_chars true _ isName.2 c List.mem_cons_self
  rw [other] at nameChar
  cases nameChar

theorem digit_nameFollowed {digits gap : Str} {more : List Lexeme} (nonempty : digits ≠ [])
    (digit : ∀ c ∈ digits, c.isDigit = true) : NameFollowed (⟨digits, gap⟩ :: more) := by
  rintro name gap' rest isName ⟨⟩
  obtain ⟨c, str, rfl⟩ := List.exists_cons_of_ne_nil nonempty
  have whole := isName.2
  simp [nameLength, digit c List.mem_cons_self] at whole

theorem EmptyPairs.nameFollowed {pairs lexemes : List Lexeme} (empty : EmptyPairs pairs)
    (followed : NameFollowed lexemes) : NameFollowed (pairs ++ lexemes) := by
  cases empty with
  | nothing => exact followed
  | pair space inside => exact not_nameFollowed rfl

theorem Phrase.more_follows {clean isOpen : Bool} {level : Nat} {left expr : ArithmExpr} {lexemes : List Lexeme}
    (phrase : Phrase clean (.more level left) isOpen lexemes expr) : FollowsOperand lexemes := by
  cases phrase with
  | done => exact .inl rfl
  | more member space operand continues closed =>
      exact .inr ⟨_, _, _, rfl, space, (operand.starts (by simp)).append _, .inr ⟨_, _, member, rfl⟩⟩

/-- A name that a part other than an assignment starts with is an operand. -/
theorem Phrase.nameFollowed {clean isOpen : Bool} {part : ExprPart} {lexemes : List Lexeme} {expr : ArithmExpr}
    (phrase : Phrase clean part isOpen lexemes expr) (operand : (∃ level, part = .level level) ∨ part = .conditional) :
    NameFollowed lexemes := by
  induction phrase with
  | literal empty _ nonempty digit => exact empty.nameFollowed (digit_nameFollowed nonempty digit)
  | var empty _ isName =>
      apply empty.nameFollowed
      rintro name gap more _ ⟨⟩
      exact .inl rfl
  | unop type empty =>
      apply empty.nameFollowed
      apply not_nameFollowed
      cases type <;> rfl
  | paren => exact not_nameFollowed rfl
  | chain low first continues closed followed =>
      exact (followed (.inl ⟨_, rfl⟩)).append (first.starts (by simp)) continues.more_follows
  | done left => simp at operand
  | more => simp at operand
  | up high bounded inner followed => exact followed (.inl ⟨_, rfl⟩)
  | binop high bounded member space skipped first operands followed =>
      refine (followed (.inl ⟨_, rfl⟩)).append (first.starts (by simp)) ?_
      exact .inr ⟨_, _, _, rfl, space, operands.starts (by simp), .inr ⟨_, _, member, rfl⟩⟩
  | value inner followed => exact followed (.inl ⟨_, rfl⟩)
  | cond first chosen otherwise followed =>
      refine (followed (.inl ⟨_, rfl⟩)).append (first.starts (by simp)) ?_
      exact .inr ⟨_, _, _, rfl, by simp [IsGap], (chosen.starts (by simp)).append _, .inl rfl⟩
  | whole => simp at operand
  | assign => simp at operand

/-! ## Operators -/

theorem isPrefixOf_cons_ne {c d : Char} (different : c ≠ d) (str more : Str) :
    (d :: str).isPrefixOf (c :: more) = false := by
  have unequal : (d == c) = false := by simpa using Ne.symm different
  rw [List.isPrefixOf, unequal, Bool.false_and]

/-- A character that does not make an operator before it longer. -/
structure PlainChar (c : Char) : Prop where
  notEquals : c ≠ '='
  notLess : c ≠ '<'
  notGreat : c ≠ '>'
  notBar : c ≠ '|'
  notAmpersand : c ≠ '&'

theorem space_plain {c : Char} (space : isSpace c = true) : PlainChar c := by
  constructor <;> (rintro rfl; revert space; decide)

theorem operandChar_plain {c : Char} (operand : operandChar c = true) : PlainChar c := by
  constructor <;> (rintro rfl; revert operand; decide)

theorem op_level {level : Nat} {op : OpToken} (bounded : level < 10) (member : op ∈ levelOps (level + 1)) {c : Char}
    (plain : PlainChar c) (more : Str) :
    levelOpAt (level + 1) (op.str ++ c :: more) = some op ∧ Stops level (op.str ++ c :: more) ∧
      isSpace (charAt (op.str ++ c :: more) 0) = false := by
  obtain ⟨notEquals, notLess, notGreat, notBar, notAmpersand⟩ := plain
  have equals := isPrefixOf_cons_ne notEquals
  have less := isPrefixOf_cons_ne notLess
  have great := isPrefixOf_cons_ne notGreat
  have visible : isSpace (charAt (op.str ++ c :: more) 0) = false := by
    interval_cases level
    all_goals
      simp only [levelOps, List.mem_cons, List.not_mem_nil, or_false] at member
      rcases member with rfl | rfl | rfl | rfl | rfl <;> rfl
  refine ⟨?_, ⟨fun _ => visible, fun lower positive small => ?_⟩, visible⟩
  · interval_cases level
    all_goals
      simp only [levelOps, List.mem_cons, List.not_mem_nil, or_false] at member
      rcases member with rfl | rfl | rfl | rfl | rfl <;>
        simp [levelOpAt, levelOps, OpToken.isAt, charAt, equals, notBar, notAmpersand]
  · have above : 0 < level := by omega
    interval_cases level
    all_goals
      simp only [levelOps, List.mem_cons, List.not_mem_nil, or_false] at member
      rcases member with rfl | rfl | rfl | rfl | rfl <;> interval_cases lower <;>
        first
        | rfl
        | simp [levelOpAt, levelOps, OpToken.isAt, charAt, less, great]

end Mrsh
