import Mrsh.Parser.ArithmSpacing

namespace Mrsh

open Mrsh.Data

/-! # Operators behind a name

An assignment is recognised by the characters behind its name, before any operator is
read. Of the other operators, only `==` is taken for the start of one.
-/

/-- An operator that may come behind a name. -/
inductive NameOperator where
  | binop (type : ArithmBinopType)
  | assign (op : ArithmAssignOp)
deriving Repr, DecidableEq

namespace NameOperator

def str : NameOperator → Str
  | .binop type => (binopToken type).str
  | .assign op => assignStr op

end NameOperator

/-- The first operation of the expression is the operator between the name and another operand. -/
inductive FirstOperation (type : ArithmBinopType) (name : Str) : ArithmExpr → Prop where
  | here (right : ArithmExpr) : FirstOperation type name (.binop type (.var name) right)
  | left {other : ArithmBinopType} {left : ArithmExpr} (right : ArithmExpr) (first : FirstOperation type name left) :
      FirstOperation type name (.binop other left right)
  | condition {condition : ArithmExpr} (body elsePart : ArithmExpr) (first : FirstOperation type name condition) :
      FirstOperation type name (.cond condition body elsePart)

/-- The text is parsed to an assignment to the name, or to an expression with the operator behind the name. -/
def ParsedBehindName (name text : Str) : NameOperator → Prop
  | .assign op => ∃ value, IsParsed text (.assign op name value)
  | .binop type => ∃ expr, IsParsed text expr ∧ FirstOperation type name expr

/-- The look-ahead for an assignment, at the first token of the text. -/
def startsAssignment (text : Str) : Bool :=
  let start := text.dropWhile isSpace
  let nameLen := nameLength false true start
  nameLen != 0 && (assignOpAt (start.drop nameLen)).isSome

/-- The operator may come between a name and the text. -/
def NameOperator.Takes (text : Str) : NameOperator → Prop
  | .assign _ => isSpace (charAt text 0) = false
  | .binop type =>
      type ≠ .deq ∧ (type = .bangeq → isSpace (charAt text 0) = false) ∧ startsAssignment text = false

/-! ## A name and an operator before an expression -/

variable {clean isOpen : Bool} {part : ExprPart} {level : Nat} {lexemes : List Lexeme} {expr value : ArithmExpr}
  {name gap text : Str} {op : OpToken}

/-- The part with a name and an operator before it. What a level goes on with also goes on after
another first operand. -/
def Prefixed (clean isOpen : Bool) (name gap : Str) (op : OpToken) (level : Nat) (lexemes : List Lexeme) :
    ExprPart → Prop
  | .level upper => level < upper → ∃ expr,
      Phrase clean (.level upper) isOpen (⟨name, []⟩ :: ⟨op.str, gap⟩ :: lexemes) expr ∧
        FirstOperation op.type name expr
  | .more upper _ => ∀ left, FirstOperation op.type name left → ∃ expr,
      Phrase clean (.more upper left) isOpen lexemes expr ∧ FirstOperation op.type name expr
  | .conditional => ∃ expr,
      Phrase clean .conditional isOpen (⟨name, []⟩ :: ⟨op.str, gap⟩ :: lexemes) expr ∧ FirstOperation op.type name expr
  | .whole => True

theorem Phrase.prefixed (phrase : Phrase clean part isOpen lexemes expr) (isName : ArithmExpr.IsWritable.IsName name)
    (bounded : level < 10) (member : op ∈ levelOps (level + 1)) (space : IsGap gap) (tight : level + 1 = 5 → gap = []) :
    Prefixed clean isOpen name gap op level lexemes part := by
  have nameLevel : Phrase clean (.level level) false [⟨name, []⟩] (.var name) :=
    Phrase.climb (.var .nothing (fun _ => rfl) isName isGap_nil) (Nat.zero_le level) (by omega)
  induction phrase with
  | literal => exact fun below => absurd below (Nat.not_lt_zero level)
  | var => exact fun below => absurd below (Nat.not_lt_zero level)
  | unop => exact fun below => absurd below (Nat.not_lt_zero level)
  | paren => exact fun below => absurd below (Nat.not_lt_zero level)
  | @chain upper isOpen restOpen lexemes rest first expr low operand continues closed ih restIh =>
      intro below
      by_cases same : level = upper
      · subst same
        obtain ⟨whole, more, firstOperation⟩ := restIh _ (.here first)
        exact ⟨whole, .chain low nameLevel (.more member space operand more closed) Bool.noConfusion, firstOperation⟩
      · obtain ⟨first, operandPhrase, firstOperation⟩ := ih (by omega)
        obtain ⟨whole, more, wholeFirst⟩ := restIh first firstOperation
        exact ⟨whole, .chain low operandPhrase more closed, wholeFirst⟩
  | done left => exact fun left firstOperation => ⟨left, .done left, firstOperation⟩
  | more opMember opSpace operand continues closed ih restIh =>
      intro left firstOperation
      obtain ⟨whole, more, wholeFirst⟩ := restIh _ (.left _ firstOperation)
      exact ⟨whole, .more opMember opSpace operand more closed, wholeFirst⟩
  | @up upper isOpen lexemes expr high small operand ih =>
      intro below
      by_cases same : level = upper
      · subst same
        exact ⟨_, .binop high small member space tight nameLevel (.up high small operand), .here expr⟩
      · obtain ⟨whole, operandPhrase, firstOperation⟩ := ih (by omega)
        exact ⟨whole, .up high small operandPhrase, firstOperation⟩
  | @binop upper otherOp otherGap isOpen lexemes others left right high small opMember opSpace opTight operand
    operands ih _ =>
      intro below
      by_cases same : level = upper
      · subst same
        exact ⟨_, .binop high small member space tight nameLevel
          (.binop high small opMember opSpace opTight operand operands), .here _⟩
      · obtain ⟨first, operandPhrase, firstOperation⟩ := ih (by omega)
        exact ⟨_, .binop high small opMember opSpace opTight operandPhrase operands, .left right firstOperation⟩
  | value operand ih =>
      obtain ⟨whole, operandPhrase, firstOperation⟩ := ih bounded
      exact ⟨whole, .value operandPhrase, firstOperation⟩
  | cond operand chosen otherwise ih =>
      obtain ⟨whole, operandPhrase, firstOperation⟩ := ih bounded
      exact ⟨_, .cond operandPhrase chosen otherwise, .condition _ _ firstOperation⟩
  | whole => trivial
  | assign => trivial

/-! ## The tokens behind a name -/

theorem NameOperator.starts (op : NameOperator) : ∃ c str, op.str = c :: str ∧ nameChar c = false ∧
    isSpace c = false := by
  cases op with
  | binop type => cases type <;> exact ⟨_, _, rfl, rfl, rfl⟩
  | assign op => cases op <;> exact ⟨_, _, rfl, rfl, rfl⟩

theorem NameOperator.firstToken (op : NameOperator) {c : Char} (plain : PlainChar c) (more : Str) :
    Mrsh.firstToken (op.str ++ c :: more) = op.str := by
  cases op with
  | binop type => exact firstToken_binop type plain more
  | assign op => exact firstToken_assign op plain more

theorem Phrase.behindName (phrase : Phrase clean .whole isOpen lexemes expr)
    (isName : ArithmExpr.IsWritable.IsName name)
    (operator : NameOperator) (space : IsGap gap) :
    arithmLexemes (lexemesText (⟨name, []⟩ :: ⟨operator.str, gap⟩ :: lexemes)) =
      ⟨name, []⟩ :: ⟨operator.str, gap⟩ :: lexemes := by
  obtain ⟨last, scans, behind⟩ := phrase.scans
  obtain ⟨visible, plain, -⟩ := (scans.nextStarts behind).text rfl space
  obtain ⟨c, more, text, plainChar⟩ := plain id
  obtain ⟨d, str, opStr, noName, opVisible⟩ := operator.starts
  have opToken : Mrsh.firstToken (lexemesText (⟨operator.str, gap⟩ :: lexemes)) = operator.str := by
    rw [lexemesText_cons, List.append_assoc, text]
    exact operator.firstToken plainChar more
  have ends : NoNameChar (lexemesText (⟨operator.str, gap⟩ :: lexemes)) := by
    intro e others start
    rw [lexemesText_cons, opStr] at start
    cases start
    exact noName
  have nameToken : Mrsh.firstToken (lexemesText (⟨name, []⟩ :: ⟨operator.str, gap⟩ :: lexemes)) = name := by
    rw [lexemesText_cons, List.append_nil]
    exact firstToken_name isName ends
  have opStarts : isSpace (charAt (lexemesText (⟨operator.str, gap⟩ :: lexemes)) 0) = false := by
    rw [lexemesText_cons, opStr]
    exact opVisible
  have munched : Munched (⟨name, []⟩ :: ⟨operator.str, gap⟩ :: lexemes) :=
    ⟨isName.1, nameToken, isGap_nil, opStarts, by rw [opStr]; simp, opToken, space, visible,
      scans.munched behind rfl phrase.gapped⟩
  have nameVisible : isSpace (charAt (lexemesText (⟨name, []⟩ :: ⟨operator.str, gap⟩ :: lexemes)) 0) = false := by
    obtain ⟨c, str, rfl⟩ := List.exists_cons_of_ne_nil isName.1
    exact (nameChar_token (nameLength_chars true _ isName.2 c List.mem_cons_self) []).2.1
  exact munched.arithmLexemes isGap_nil nameVisible

/-- A text that is not taken behind the name and the operator is not parsed there. -/
theorem Phrase.behindName_scans (phrase : Phrase clean .whole isOpen lexemes expr)
    (isName : ArithmExpr.IsWritable.IsName name) (operator : NameOperator) (space : IsGap gap)
    (expression : IsExpression false (lexemesText (⟨name, []⟩ :: ⟨operator.str, gap⟩ :: lexemes)) value) :
    ∃ next last, TokenStep (.name false) ⟨operator.str, gap⟩ next ∧ Scans next lexemes last := by
  obtain ⟨_, _, -, whole, -⟩ := isExpression_iff.mp expression
  rw [phrase.behindName isName operator space] at whole
  obtain ⟨last, scans, -⟩ := whole.scans
  cases scans with
  | cons nameStep scans =>
      obtain rfl := nameStep.name_next isName
      cases scans with
      | cons step scans => exact ⟨_, last, step, scans⟩

/-! ## The look-ahead -/

theorem gap_visible {rest : Str} (space : IsGap gap) (visible : isSpace (charAt rest 0) = false) :
    isSpace (charAt (gap ++ rest) 0) = false ↔ gap = [] := by
  cases gap with
  | nil => simpa using visible
  | cons c gap =>
      have first : isSpace (charAt (c :: gap ++ rest) 0) = true := space c List.mem_cons_self
      rw [first]
      simp

theorem Phrase.lookAhead_none (inside : Phrase clean .conditional isOpen lexemes expr)
    (uncompared : ¬ ComparedName lexemes) (space : IsGap gap)
    (visible : isSpace (charAt (lexemesText lexemes) 0) = false) :
    startsAssignment (gap ++ lexemesText lexemes) = false := by
  have unassigned := inside.unassigned uncompared (show Closes [] from .inl rfl)
  rw [List.append_nil] at unassigned
  rw [startsAssignment, dropWhile_gap space visible]
  rcases unassigned with noName | noOp
  · simp [noName]
  · simp [noOp]

theorem lookAhead_assign (op : ArithmAssignOp) (isName : ArithmExpr.IsWritable.IsName name) (space : IsGap gap)
    (rest : Str) : startsAssignment (gap ++ (name ++ (assignStr op ++ rest))) = true := by
  have visible : isSpace (charAt (name ++ (assignStr op ++ rest)) 0) = false := by
    obtain ⟨c, str, rfl⟩ := List.exists_cons_of_ne_nil isName.1
    exact (nameChar_token (nameLength_chars true _ isName.2 c List.mem_cons_self) []).2.1
  have opEnds : nameLength false false (assignStr op ++ rest) = 0 := by cases op <;> rfl
  have nonempty : name.length ≠ 0 := fun zero => isName.1 (List.length_eq_zero_iff.mp zero)
  have found : (assignOpAt (assignStr op ++ rest)).isSome = true := by
    cases op <;> simp [assignOpAt, assignOps, assignStr]
  rw [startsAssignment, dropWhile_gap space visible, nameLength_name true name isName.2 opEnds (.inl isName.1),
    List.drop_left, found]
  simpa using nonempty

/-! ## What is parsed behind a name -/

theorem name_noNul (isName : ArithmExpr.IsWritable.IsName name) : '\x00' ∉ name := by
  intro member
  cases nameLength_chars true _ isName.2 _ member

theorem NameOperator.noNul (operator : NameOperator) : '\x00' ∉ operator.str := by
  cases operator with
  | binop type => cases type <;> decide
  | assign op => cases op <;> decide

theorem binopLevel_member (type : ArithmBinopType) : binopToken type ∈ levelOps (binopLevel type + 1) := by
  cases type <;> decide

theorem binopLevel_compares {type : ArithmBinopType} (isLevel : binopLevel type + 1 = 5) : type = .deq ∨
    type = .bangeq := by
  cases type <;> simp_all [binopLevel]

/-- A name and an operator before an expression are parsed to an assignment, or to the operation on the name, exactly if
the operator takes the text of the expression. -/
theorem parsedBehindName_iff (visible : '\x00' ∉ text) (isName : ArithmExpr.IsWritable.IsName name)
    (isParsed : IsParsed text expr) (operator : NameOperator) :
    ParsedBehindName name (name ++ (operator.str ++ text)) operator ↔ operator.Takes text := by
  obtain ⟨gap, isOpen, lexemes, space, phrase, rfl⟩ := (isParsed_iff visible).mp isParsed
  obtain ⟨last, scans, behind⟩ := phrase.scans
  have textVisible := scans.visible behind rfl
  have split : name ++ (operator.str ++ (gap ++ lexemesText lexemes)) =
      lexemesText (⟨name, []⟩ :: ⟨operator.str, gap⟩ :: lexemes) := by simp
  have wholeVisible : '\x00' ∉ name ++ (operator.str ++ (gap ++ lexemesText lexemes)) := by
    rw [List.mem_append, List.mem_append, not_or, not_or]
    exact ⟨name_noNul isName, operator.noNul, visible⟩
  rw [split] at wholeVisible ⊢
  cases operator with
  | assign op =>
      rw [NameOperator.Takes, gap_visible space textVisible]
      constructor
      · rintro ⟨value, parsed⟩
        obtain ⟨next, last, step, -⟩ :=
          phrase.behindName_scans isName (.assign op) space ((isParsed_iff wholeVisible).mp parsed)
        exact (step.assign_next trivial).2.1
      · rintro rfl
        have expression : IsExpression false _ (.assign op name expr) :=
          ⟨[], true, _, isGap_nil, .assign op isName phrase, rfl⟩
        exact ⟨expr, expression.isParsed⟩
  | binop type =>
      rw [NameOperator.Takes, gap_visible space textVisible]
      constructor
      · rintro ⟨parsed, isParsed, -⟩
        obtain ⟨next, last, step, rest⟩ :=
          phrase.behindName_scans isName (.binop type) space ((isParsed_iff wholeVisible).mp isParsed)
        obtain ⟨rfl, tight, unassigned⟩ := step.binop_next trivial
        refine ⟨unassigned rfl, fun bang => tight (.inr bang), ?_⟩
        cases phrase with
        | whole inside uncompared => exact inside.lookAhead_none uncompared space textVisible
        | assign op otherName assigned =>
            cases rest with
            | cons nameStep rest =>
                obtain rfl := nameStep.name_next otherName
                cases rest with
                | cons opStep rest => cases (opStep.assign_next trivial).1
      · rintro ⟨notEqual, tight, unassigned⟩
        cases phrase with
        | whole inside uncompared =>
            have below : binopLevel type < 10 := by
              have bounded := binopLevel_bounded type
              omega
            have tightLevel : binopLevel type + 1 = 5 → gap = [] := by
              intro isLevel
              rcases binopLevel_compares isLevel with equal | bang
              · exact absurd equal notEqual
              · exact tight bang
            obtain ⟨whole, prefixed, first⟩ :=
              inside.prefixed isName below (binopLevel_member type) space tightLevel
            rw [binopToken_type] at first
            have expression :
                IsExpression false (lexemesText (⟨name, []⟩ :: ⟨(binopToken type).str, gap⟩ :: lexemes)) whole := by
              refine ⟨[], true, _, isGap_nil, .whole prefixed ?_, rfl⟩
              rintro ⟨other, otherGap, more, -, same⟩
              have compares : (binopToken type).str = (binopToken .deq).str := by
                rw [List.cons.injEq, List.cons.injEq] at same
                exact congrArg Lexeme.str same.2.1
              exact notEqual (binopToken_injective compares)
            exact ⟨whole, expression.isParsed, first⟩
        | @assign other _ others _ op otherName assigned =>
            have assigns := lookAhead_assign op otherName space (lexemesText others)
            rw [lexemesText_cons, lexemesText_cons, List.append_nil, List.append_nil, assigns] at unassigned
            cases unassigned

theorem parsedBehindName_less : ParsedBehindName ['x'] "x<1".toList (.binop .less) := by
  have ended : (mrshParseArithmExpr 6 (mrshParserWithData ['1'])).value? = some (some (.literal 1)) := by
    decide +kernel
  exact (parsedBehindName_iff (by decide) ⟨by decide, by decide⟩
    (isParsed_of_done (Outcome.eq_done_of_value? ended) (by decide +kernel)) (.binop .less)).mpr
      ⟨by decide, by decide, by decide⟩

/-- `x==1` is not parsed. -/
theorem name_equals_unparsed : ¬ ∀ (name text : Str) (expr : ArithmExpr) (operator : NameOperator), '\x00' ∉ text →
    ArithmExpr.IsWritable.IsName name → IsParsed text expr →
      ParsedBehindName name (name ++ (operator.str ++ text)) operator := by
  intro claim
  have ended : (mrshParseArithmExpr 6 (mrshParserWithData ['1'])).value? = some (some (.literal 1)) := by
    decide +kernel
  obtain ⟨expr, isParsed, -⟩ := claim ['x'] ['1'] (.literal 1) (.binop .deq) (by decide) ⟨by decide, by decide⟩
    (isParsed_of_done (Outcome.eq_done_of_value? ended) (by decide +kernel))
  have failed : (mrshParseArithmExpr 8 (mrshParserWithData "x==1".toList)).value? = some none := by decide +kernel
  cases (isParsed.agrees (Outcome.eq_done_of_value? failed)).1

end Mrsh
