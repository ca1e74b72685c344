import Mrsh.Parser.ArithmRendering
import Mrsh.Parser.ArithmTokens

namespace Mrsh

open Mrsh.Data

/-! # Whitespace between the tokens

The tokens of an expression can be written with any whitespace between them that their
places allow, and with no other.
-/

variable {place next last : TokenPlace} {lexemes others pairs : List Lexeme} {lexeme : Lexeme} {gap : Str}
  {whole spaced : Bool}

/-! ## Which step a token makes -/

theorem TokenStep.operand_cases (step : TokenStep (.operand whole) lexeme next) :
    (lexeme.str = ['('] ∧ next = .operand true) ∨ (lexeme = ⟨[')'], []⟩ ∧ next = .operand false) ∨
      (∃ type, lexeme = ⟨[unopChar type], []⟩ ∧ next = .operand true) ∨
      (lexeme.str ≠ [] ∧ (∀ c ∈ lexeme.str, c.isDigit = true) ∧ next = .operator) ∨
      (ArithmExpr.IsWritable.IsName lexeme.str ∧
        next = if whole then .name (!lexeme.gap.isEmpty) else .operator) := by
  cases step with
  | openParen => exact .inl ⟨rfl, rfl⟩
  | emptyPair => exact .inr (.inl ⟨rfl, rfl⟩)
  | unop type => exact .inr (.inr (.inl ⟨type, rfl, rfl⟩))
  | literal nonempty digit => exact .inr (.inr (.inr (.inl ⟨nonempty, digit, rfl⟩)))
  | operandName isName => exact .inr (.inr (.inr (.inr ⟨isName, rfl⟩)))
  | firstName isName => exact .inr (.inr (.inr (.inr ⟨isName, rfl⟩)))
  | closeParen behind => exact absurd behind id
  | binop _ behind => exact absurd behind id
  | question behind => exact absurd behind id
  | colon behind => exact absurd behind id

theorem TokenStep.behind_cases (step : TokenStep place lexeme next) (behind : place.Behind) :
    (lexeme.str = [')'] ∧ next = .operator) ∨
      (∃ type, lexeme.str = (binopToken type).str ∧ next = .operand false ∧
        (type = .deq ∨ type = .bangeq → lexeme.gap = []) ∧ (place = .name false → type ≠ .deq)) ∨
      ((lexeme = ⟨['?'], []⟩ ∨ lexeme = ⟨[':'], []⟩) ∧ next = .operand false) ∨
      (∃ op, place = .name false ∧ lexeme = ⟨assignStr op, []⟩ ∧ next = .operand true) := by
  cases step with
  | openParen => exact absurd behind id
  | emptyPair => exact absurd behind id
  | unop => exact absurd behind id
  | literal => exact absurd behind id
  | operandName => exact absurd behind id
  | firstName => exact absurd behind id
  | closeParen => exact .inl ⟨rfl, rfl⟩
  | binop type _ _ tight unassigned => exact .inr (.inl ⟨type, rfl, rfl, tight, unassigned⟩)
  | question => exact .inr (.inr (.inl ⟨.inl rfl, rfl⟩))
  | colon => exact .inr (.inr (.inl ⟨.inr rfl, rfl⟩))
  | assign op => exact .inr (.inr (.inr ⟨op, rfl, rfl, rfl⟩))

theorem not_name {c : Char} {str : Str} (other : nameChar c = false) : ¬ ArithmExpr.IsWritable.IsName (c :: str) := by
  intro isName
  have first : nameChar c = true := nameLength_chars true _ isName.2 c List.mem_cons_self
  rw [other] at first
  cases first

theorem not_digits {c : Char} {str : Str} (other : nameChar c = false) : ¬ ∀ d ∈ c :: str, d.isDigit = true := by
  intro digit
  have first : nameChar c = true := by simp [nameChar, Char.isAlphanum, digit c List.mem_cons_self]
  rw [other] at first
  cases first

theorem TokenStep.openParen_next (step : TokenStep (.operand whole) ⟨['('], gap⟩ next) : next = .operand true := by
  rcases step.operand_cases with ⟨-, same⟩ | ⟨absurdly, -⟩ | ⟨type, absurdly, -⟩ | ⟨-, digit, -⟩ | ⟨isName, -⟩
  · exact same
  · cases absurdly
  · cases type <;> cases absurdly
  · exact absurd digit (not_digits rfl)
  · exact absurd isName (not_name rfl)

theorem TokenStep.emptyPair_next (step : TokenStep (.operand whole) ⟨[')'], gap⟩ next) : gap = [] ∧ next =
    .operand false := by
  rcases step.operand_cases with ⟨absurdly, -⟩ | ⟨same, isNext⟩ | ⟨type, absurdly, -⟩ | ⟨-, digit, -⟩ | ⟨isName, -⟩
  · cases absurdly
  · cases same
    exact ⟨rfl, isNext⟩
  · cases type <;> cases absurdly
  · exact absurd digit (not_digits rfl)
  · exact absurd isName (not_name rfl)

theorem TokenStep.unop_next {type : ArithmUnopType} (step : TokenStep (.operand whole) ⟨[unopChar type], gap⟩ next) :
    gap = [] ∧ next = .operand true := by
  rcases step.operand_cases with ⟨absurdly, -⟩ | ⟨absurdly, -⟩ | ⟨other, same, isNext⟩ | ⟨-, digit, -⟩ | ⟨isName, -⟩
  · cases type <;> cases absurdly
  · cases type <;> cases absurdly
  · exact ⟨congrArg Lexeme.gap same, isNext⟩
  · exact absurd digit (by cases type <;> exact not_digits rfl)
  · exact absurd isName (by cases type <;> exact not_name rfl)

theorem TokenStep.literal_next {digits : Str} (nonempty : digits ≠ []) (digit : ∀ c ∈ digits, c.isDigit = true)
    (step : TokenStep (.operand whole) ⟨digits, gap⟩ next) : next = .operator := by
  obtain ⟨c, str, rfl⟩ := List.exists_cons_of_ne_nil nonempty
  have first := digit c List.mem_cons_self
  rcases step.operand_cases with ⟨same, -⟩ | ⟨same, -⟩ | ⟨type, same, -⟩ | ⟨-, -, isNext⟩ | ⟨isName, -⟩
  · cases same
    cases first
  · cases same
    cases first
  · cases type <;> (cases same; cases first)
  · exact isNext
  · have whole := isName.2
    simp [nameLength, first] at whole

theorem TokenStep.name_next {name : Str} (isName : ArithmExpr.IsWritable.IsName name)
    (step : TokenStep (.operand whole) ⟨name, gap⟩ next) :
    next = if whole then .name (!gap.isEmpty) else .operator := by
  obtain ⟨c, str, rfl⟩ := List.exists_cons_of_ne_nil isName.1
  have chars := nameLength_chars true _ isName.2 c List.mem_cons_self
  rcases step.operand_cases with ⟨same, -⟩ | ⟨same, -⟩ | ⟨type, same, -⟩ | ⟨-, digit, -⟩ | ⟨-, isNext⟩
  · cases same
    cases chars
  · cases same
    cases chars
  · cases type <;> (cases same; cases chars)
  · have whole := isName.2
    simp [nameLength, digit c List.mem_cons_self] at whole
  · exact isNext

theorem binopToken_injective {type other : ArithmBinopType} (same : (binopToken type).str = (binopToken other).str) :
    type = other := by
  cases type <;> cases other <;> first | rfl | cases same

theorem binopToken_not_assign (type : ArithmBinopType) (op : ArithmAssignOp) :
    (binopToken type).str ≠ assignStr op := by
  cases type <;> cases op <;> decide

theorem TokenStep.closeParen_next (behind : place.Behind) (step : TokenStep place ⟨[')'], gap⟩ next) : next =
    .operator := by
  rcases step.behind_cases behind with ⟨-, isNext⟩ | ⟨type, same, -⟩ | ⟨same | same, -⟩ | ⟨op, -, same, -⟩
  · exact isNext
  · cases type <;> cases same
  · cases same
  · cases same
  · cases op <;> cases same

theorem TokenStep.binop_next {type : ArithmBinopType}
    (step : TokenStep place ⟨(binopToken type).str, gap⟩ next) (behind : place.Behind) :
    next = .operand false ∧ (type = .deq ∨ type = .bangeq → gap = []) ∧ (place = .name false → type ≠ .deq) := by
  rcases step.behind_cases behind with ⟨same, -⟩ | ⟨other, same, isNext, tight, unassigned⟩ | ⟨same | same, -⟩ |
    ⟨op, -, same, -⟩
  · cases type <;> cases same
  · obtain rfl := binopToken_injective same
    exact ⟨isNext, tight, unassigned⟩
  · cases type <;> cases same
  · cases type <;> cases same
  · exact absurd (congrArg Lexeme.str same) (binopToken_not_assign type op)

theorem TokenStep.question_next (behind : place.Behind) (step : TokenStep place ⟨['?'], gap⟩ next) :
    gap = [] ∧ next = .operand false := by
  rcases step.behind_cases behind with ⟨same, -⟩ | ⟨type, same, -⟩ | ⟨same | same, isNext⟩ | ⟨op, -, same, -⟩
  · cases same
  · cases type <;> cases same
  · cases same
    exact ⟨rfl, isNext⟩
  · cases same
  · cases op <;> cases same

theorem TokenStep.colon_next (behind : place.Behind) (step : TokenStep place ⟨[':'], gap⟩ next) :
    gap = [] ∧ next = .operand false := by
  rcases step.behind_cases behind with ⟨same, -⟩ | ⟨type, same, -⟩ | ⟨same | same, isNext⟩ | ⟨op, -, same, -⟩
  · cases same
  · cases type <;> cases same
  · cases same
  · cases same
    exact ⟨rfl, isNext⟩
  · cases op <;> cases same

theorem TokenStep.assign_next {op : ArithmAssignOp} (step : TokenStep place ⟨assignStr op, gap⟩ next)
    (behind : place.Behind) :
    place = .name false ∧ gap = [] ∧ next = .operand true := by
  rcases step.behind_cases behind with ⟨same, -⟩ | ⟨type, same, -⟩ | ⟨same | same, -⟩ | ⟨other, isPlace, same, isNext⟩
  · cases op <;> cases same
  · exact absurd same.symm (binopToken_not_assign type op)
  · cases op <;> cases same
  · cases op <;> cases same
  · exact ⟨isPlace, congrArg Lexeme.gap same, isNext⟩

theorem TokenStep.level_next {level : Nat} {op : OpToken} (member : op ∈ levelOps level) (behind : place.Behind)
    (step : TokenStep place ⟨op.str, gap⟩ next) : next = .operand false ∧ (level = 5 → gap = []) := by
  obtain ⟨str, -⟩ := levelOps_type member
  rw [← str] at step
  obtain ⟨isNext, tight, -⟩ := step.binop_next behind
  refine ⟨isNext, fun isLevel => tight ?_⟩
  subst isLevel
  simp only [levelOps, List.mem_cons, List.not_mem_nil, or_false] at member
  rcases member with rfl | rfl
  · exact .inl rfl
  · exact .inr rfl

/-! ## Other whitespace -/

/-- Where the part starts. -/
def PartPlace (place : TokenPlace) : ExprPart → Prop
  | .whole => place = .operand true
  | .more _ _ => place.Behind
  | _ => ∃ whole, place = .operand whole

/-- The tokens are the same. -/
abbrev SameTokens (lexemes others : List Lexeme) : Prop := lexemes.map (·.str) = others.map (·.str)

theorem SameTokens.nil (same : SameTokens others []) : others = [] := List.map_eq_nil_iff.mp same

theorem SameTokens.cons (same : SameTokens others (lexeme :: lexemes)) :
    ∃ gap more, others = ⟨lexeme.str, gap⟩ :: more ∧ SameTokens more lexemes := by
  rw [SameTokens, List.map_cons, List.map_eq_cons_iff] at same
  obtain ⟨⟨str, gap⟩, more, rfl, rfl, moreSame⟩ := same
  exact ⟨gap, more, rfl, moreSame⟩

theorem SameTokens.append {behind : List Lexeme} (same : SameTokens others (lexemes ++ behind)) :
    ∃ first second, others = first ++ second ∧ SameTokens first lexemes ∧ SameTokens second behind := by
  rw [SameTokens, List.map_append, List.map_eq_append_iff] at same
  exact same

theorem SameTokens.single (same : SameTokens others [lexeme]) : ∃ gap, others = [⟨lexeme.str, gap⟩] := by
  obtain ⟨gap, more, rfl, moreSame⟩ := same.cons
  exact ⟨gap, by rw [moreSame.nil]⟩

theorem EmptyPairs.respace (empty : EmptyPairs pairs) (same : SameTokens others pairs)
    (scans : Scans (.operand whole) others last) : EmptyPairs others ∧ ∃ other, last = .operand other := by
  induction empty generalizing others whole last with
  | nothing =>
      obtain rfl := same.nil
      cases scans
      exact ⟨.nothing, whole, rfl⟩
  | pair space pairs ih =>
      obtain ⟨openGap, more, rfl, moreSame⟩ := same.cons
      obtain ⟨newInside, closing, rfl, insideSame, closingSame⟩ := moreSame.append
      obtain ⟨closeGap, rfl⟩ := closingSame.single
      cases scans with
      | cons step scans =>
          obtain ⟨middle, insideScans, closeScans⟩ := scans_append.mp scans
          obtain rfl := step.openParen_next
          obtain ⟨newPairs, other, rfl⟩ := ih insideSame insideScans
          cases closeScans with
          | cons closeStep rest =>
              obtain ⟨rfl, rfl⟩ := closeStep.emptyPair_next
              cases rest
              exact ⟨.pair step.space newPairs, false, rfl⟩

/-- The empty pairs in front of a part, which is scanned from another operand on. -/
theorem EmptyPairs.respace_append {behind : List Lexeme} (empty : EmptyPairs pairs)
    (same : SameTokens others (pairs ++ behind)) (scans : Scans (.operand whole) others last) :
    ∃ newPairs part other, others = newPairs ++ part ∧ EmptyPairs newPairs ∧ (pairs = [] → newPairs = []) ∧
      SameTokens part behind ∧ Scans (.operand other) part last := by
  obtain ⟨newPairs, part, rfl, pairsSame, partSame⟩ := same.append
  obtain ⟨middle, pairsScans, partScans⟩ := scans_append.mp scans
  obtain ⟨newEmpty, other, rfl⟩ := empty.respace pairsSame pairsScans
  refine ⟨newPairs, part, other, rfl, newEmpty, ?_, partSame, partScans⟩
  rintro rfl
  exact pairsSame.nil

/-- An expression is read in the same way with any whitespace that is scanned. -/
theorem Phrase.respace {clean isOpen : Bool} {part : ExprPart} {expr : ArithmExpr}
    (phrase : Phrase clean part isOpen lexemes expr) (same : SameTokens others lexemes)
    (scans : Scans place others last) (starts : PartPlace place part) :
    Phrase clean part isOpen others expr ∧ last.Behind := by
  induction phrase generalizing others place last with
  | literal empty isClean nonempty digit scanned space =>
      obtain ⟨whole, rfl⟩ := starts
      obtain ⟨newPairs, single, other, rfl, newEmpty, stays, singleSame, singleScans⟩ := empty.respace_append same scans
      obtain ⟨gap, rfl⟩ := singleSame.single
      cases singleScans with
      | cons step rest =>
          obtain rfl := step.literal_next nonempty digit
          cases rest
          exact ⟨.literal newEmpty (fun clean => stays (isClean clean)) nonempty digit scanned step.space, trivial⟩
  | var empty isClean isName space =>
      obtain ⟨whole, rfl⟩ := starts
      obtain ⟨newPairs, single, other, rfl, newEmpty, stays, singleSame, singleScans⟩ := empty.respace_append same scans
      obtain ⟨gap, rfl⟩ := singleSame.single
      cases singleScans with
      | cons step rest =>
          obtain rfl := step.name_next isName
          cases rest
          refine ⟨.var newEmpty (fun clean => stays (isClean clean)) isName step.space, ?_⟩
          cases other <;> trivial
  | unop type empty isClean operand ih =>
      obtain ⟨whole, rfl⟩ := starts
      obtain ⟨newPairs, signed, other, rfl, newEmpty, stays, signedSame, signedScans⟩ := empty.respace_append same scans
      obtain ⟨gap, body, rfl, bodySame⟩ := signedSame.cons
      cases signedScans with
      | cons step bodyScans =>
          obtain ⟨rfl, rfl⟩ := step.unop_next
          obtain ⟨newOperand, behind⟩ := ih bodySame bodyScans rfl
          exact ⟨.unop type newEmpty (fun clean => stays (isClean clean)) newOperand, behind⟩
  | paren space spaceAfter inside ih =>
      obtain ⟨whole, rfl⟩ := starts
      obtain ⟨openGap, more, rfl, moreSame⟩ := same.cons
      obtain ⟨newInside, closing, rfl, insideSame, closingSame⟩ := moreSame.append
      obtain ⟨closeGap, rfl⟩ := closingSame.single
      cases scans with
      | cons step scans =>
          obtain ⟨middle, insideScans, closeScans⟩ := scans_append.mp scans
          obtain rfl := step.openParen_next
          obtain ⟨newPhrase, behind⟩ := ih insideSame insideScans rfl
          cases closeScans with
          | cons closeStep rest =>
              obtain rfl := closeStep.closeParen_next behind
              cases rest
              exact ⟨.paren step.space closeStep.space newPhrase, trivial⟩
  | chain low operand continues closed ih restIh =>
      obtain ⟨newOperand, newRest, rfl, operandSame, restSame⟩ := same.append
      obtain ⟨middle, operandScans, restScans⟩ := scans_append.mp scans
      obtain ⟨operandPhrase, behind⟩ := ih operandSame operandScans starts
      obtain ⟨restPhrase, restBehind⟩ := restIh restSame restScans behind
      refine ⟨.chain low operandPhrase restPhrase fun isOpen => ?_, restBehind⟩
      rw [closed isOpen] at restSame
      exact restSame.nil
  | done left =>
      obtain rfl := same.nil
      cases scans
      exact ⟨.done left, starts⟩
  | more member space operand continues closed ih restIh =>
      obtain ⟨gap, behindOp, rfl, behindSame⟩ := same.cons
      obtain ⟨newOperand, newRest, rfl, operandSame, restSame⟩ := behindSame.append
      cases scans with
      | cons step scans =>
          obtain ⟨middle, operandScans, restScans⟩ := scans_append.mp scans
          obtain ⟨rfl, -⟩ := step.level_next member starts
          obtain ⟨operandPhrase, behind⟩ := ih operandSame operandScans ⟨false, rfl⟩
          obtain ⟨restPhrase, restBehind⟩ := restIh restSame restScans behind
          refine ⟨.more member step.space operandPhrase restPhrase fun isOpen => ?_, restBehind⟩
          rw [closed isOpen] at restSame
          exact restSame.nil
  | up high bounded operand ih =>
      obtain ⟨operandPhrase, behind⟩ := ih same scans starts
      exact ⟨.up high bounded operandPhrase, behind⟩
  | binop high bounded member space skipped operand operands ih othersIh =>
      obtain ⟨newOperand, behindOperand, rfl, operandSame, behindSame⟩ := same.append
      obtain ⟨gap, newOthers, rfl, othersSame⟩ := behindSame.cons
      obtain ⟨middle, operandScans, opScans⟩ := scans_append.mp scans
      obtain ⟨operandPhrase, behind⟩ := ih operandSame operandScans starts
      cases opScans with
      | cons step othersScans =>
          obtain ⟨rfl, tight⟩ := step.level_next member behind
          obtain ⟨othersPhrase, othersBehind⟩ := othersIh othersSame othersScans ⟨false, rfl⟩
          exact ⟨.binop high bounded member step.space tight operandPhrase othersPhrase, othersBehind⟩
  | value operand ih =>
      obtain ⟨operandPhrase, behind⟩ := ih same scans starts
      exact ⟨.value operandPhrase, behind⟩
  | cond operand chosen otherwise ih chosenIh otherwiseIh =>
      obtain ⟨newOperand, behindOperand, rfl, operandSame, behindSame⟩ := same.append
      obtain ⟨gap, newBranches, rfl, branchesSame⟩ := behindSame.cons
      obtain ⟨newChosen, behindChosen, rfl, chosenSame, behindChosenSame⟩ := branchesSame.append
      obtain ⟨colonGap, newOtherwise, rfl, otherwiseSame⟩ := behindChosenSame.cons
      obtain ⟨middle, operandScans, questionScans⟩ := scans_append.mp scans
      obtain ⟨operandPhrase, behind⟩ := ih operandSame operandScans starts
      cases questionScans with
      | cons questionStep branchScans =>
          obtain ⟨rfl, rfl⟩ := questionStep.question_next behind
          obtain ⟨atColon, chosenScans, colonScans⟩ := scans_append.mp branchScans
          obtain ⟨chosenPhrase, chosenBehind⟩ := chosenIh chosenSame chosenScans ⟨false, rfl⟩
          cases colonScans with
          | cons colonStep otherwiseScans =>
              obtain ⟨rfl, rfl⟩ := colonStep.colon_next chosenBehind
              obtain ⟨otherwisePhrase, otherwiseBehind⟩ := otherwiseIh otherwiseSame otherwiseScans ⟨false, rfl⟩
              exact ⟨.cond operandPhrase chosenPhrase otherwisePhrase, otherwiseBehind⟩
  | whole inside uncompared ih =>
      obtain rfl := starts
      obtain ⟨insidePhrase, behind⟩ := ih same scans ⟨true, rfl⟩
      refine ⟨.whole insidePhrase ?_, behind⟩
      rintro ⟨name, gap, more, isName, rfl⟩
      cases scans with
      | cons step scans =>
          obtain rfl := step.name_next isName
          cases scans with
          | cons compareStep _ =>
              obtain ⟨-, -, unassigned⟩ := @TokenStep.binop_next _ _ _ .deq compareStep trivial
              exact unassigned rfl rfl
  | assign op isName assigned ih =>
      obtain rfl := starts
      obtain ⟨nameGap, behindName, rfl, behindSame⟩ := same.cons
      obtain ⟨opGap, newValue, rfl, valueSame⟩ := behindSame.cons
      cases scans with
      | cons nameStep scans =>
          obtain rfl := nameStep.name_next isName
          cases scans with
          | cons opStep valueScans =>
              obtain ⟨unspaced, rfl, rfl⟩ := opStep.assign_next trivial
              obtain ⟨valuePhrase, behind⟩ := ih valueSame valueScans rfl
              have noGap : nameGap = [] := by simpa using unspaced
              rw [noGap]
              exact ⟨.assign op isName valuePhrase, behind⟩

theorem Phrase.climb {clean : Bool} {lexemes : List Lexeme} {expr : ArithmExpr} {lower : Nat}
    (term : Phrase clean (.level lower) false lexemes expr) {upper : Nat} (above : lower ≤ upper)
    (bounded : upper ≤ 10) :
    Phrase clean (.level upper) false lexemes expr := by
  induction upper with
  | zero =>
      obtain rfl : lower = 0 := by omega
      exact term
  | succ upper ih =>
      by_cases same : lower = upper + 1
      · rw [← same]
        exact term
      · have below := ih (by omega) (by omega)
        by_cases high : 2 ≤ upper
        · exact .up high (by omega) below
        · have chained := Phrase.chain (by omega) below (.done expr) (fun _ => rfl)
          rw [List.append_nil] at chained
          exact chained

/-! ## Texts -/

variable {text : Str} {expr : ArithmExpr}

theorem Phrase.tokens {clean isOpen : Bool} (phrase : Phrase clean .whole isOpen lexemes expr)
    (same : SameTokens others lexemes) (gapped : Gapped others) (space : IsGap gap) :
    arithmLexemes (gap ++ lexemesText others) = others := by
  obtain ⟨last, scans, behind⟩ := phrase.scans
  exact (scans.munched behind same gapped).arithmLexemes space (scans.visible behind same)

theorem isExpression_iff {clean : Bool} : IsExpression clean text expr ↔
    ∃ gap isOpen, IsGap gap ∧ Phrase clean .whole isOpen (arithmLexemes text) expr ∧
      text = gap ++ lexemesText (arithmLexemes text) := by
  constructor
  · rintro ⟨gap, isOpen, lexemes, space, phrase, rfl⟩
    rw [phrase.tokens rfl phrase.gapped space]
    exact ⟨gap, isOpen, space, phrase, rfl⟩
  · rintro ⟨gap, isOpen, space, phrase, split⟩
    exact ⟨gap, isOpen, arithmLexemes text, space, phrase, split⟩

theorem IsExpression.respace_iff {clean : Bool} (expression : IsExpression clean text expr)
    (same : SameTokens lexemes (arithmLexemes text)) (gapped : Gapped lexemes) (space : IsGap gap) :
    IsExpression clean (gap ++ lexemesText lexemes) expr ↔ ∃ last, Scans (.operand true) lexemes last := by
  obtain ⟨_, isOpen, -, phrase, -⟩ := isExpression_iff.mp expression
  constructor
  · intro spaced
    obtain ⟨_, _, -, spacedPhrase, -⟩ := isExpression_iff.mp spaced
    rw [phrase.tokens same gapped space] at spacedPhrase
    obtain ⟨last, scans, -⟩ := spacedPhrase.scans
    exact ⟨last, scans⟩
  · rintro ⟨last, scans⟩
    exact ⟨gap, isOpen, lexemes, space, (phrase.respace same scans rfl).1, rfl⟩

theorem nul_lexemesText : '\x00' ∈ lexemesText lexemes ↔ ∃ lexeme ∈ lexemes, '\x00' ∈ lexeme.str ∨
    '\x00' ∈ lexeme.gap := by
  simp [lexemesText]

theorem IsGap.visible (space : IsGap gap) : '\x00' ∉ gap := fun member => space_visible (space _ member) rfl

theorem SameTokens.visible (same : SameTokens others lexemes) (gapped : Gapped others)
    (visible : '\x00' ∉ lexemesText lexemes) : '\x00' ∉ lexemesText others := by
  rw [nul_lexemesText] at visible ⊢
  rintro ⟨lexeme, member, inStr | inGap⟩
  · have inOthers : lexeme.str ∈ others.map (·.str) := List.mem_map_of_mem member
    rw [same, List.mem_map] at inOthers
    obtain ⟨other, otherMember, strIs⟩ := inOthers
    exact visible ⟨other, otherMember, .inl (strIs ▸ inStr)⟩
  · exact (gapped lexeme member).visible inGap

theorem isParsed_of_done {fuel : Nat} {after : Parser}
    (ended : mrshParseArithmExpr fuel (mrshParserWithData text) = .done (some expr) after)
    (noError : after.error = none) : IsParsed text expr :=
  ⟨fuel, fun _ enough => ⟨after, mrshParseArithmExpr_extends enough _ _ _ ended, noError⟩⟩

/-- The same tokens with other whitespace are parsed to the same expression exactly if their places allow the
whitespace. -/
theorem isParsed_respaced_iff (visible : '\x00' ∉ text) (isParsed : IsParsed text expr) (space : IsGap gap)
    (gapped : Gapped lexemes) (same : SameTokens lexemes (arithmLexemes text)) :
    IsParsed (gap ++ lexemesText lexemes) expr ↔ ∃ last, Scans (.operand true) lexemes last := by
  have expression := (isParsed_iff visible).mp isParsed
  have tokensVisible : '\x00' ∉ lexemesText (arithmLexemes text) := by
    obtain ⟨before, _, _, _, split⟩ := isExpression_iff.mp expression
    intro member
    rw [split] at visible
    exact visible (List.mem_append_right before member)
  have spacedVisible : '\x00' ∉ gap ++ lexemesText lexemes := by
    rw [List.mem_append, not_or]
    exact ⟨space.visible, same.visible gapped tokensVisible⟩
  rw [isParsed_iff spacedVisible]
  exact expression.respace_iff same gapped space

theorem isParsed_respaced_sum :
    IsParsed (" ".toList ++ lexemesText [⟨['1'], " ".toList⟩, ⟨['+'], " ".toList⟩, ⟨['2'], " ".toList⟩])
      (.binop .plus (.literal 1) (.literal 2)) := by
  have ended : (mrshParseArithmExpr 6 (mrshParserWithData "1+2".toList)).value? =
      some (some (.binop .plus (.literal 1) (.literal 2))) := by
    decide +kernel
  have digit : ∀ place c, c.isDigit = true → TokenStep (.operand place) ⟨[c], " ".toList⟩ .operator :=
    fun _ _ digit => .literal (List.cons_ne_nil _ _) (by simpa using digit) (by decide)
  refine (isParsed_respaced_iff (show '\x00' ∉ "1+2".toList by decide)
    (isParsed_of_done (Outcome.eq_done_of_value? ended) (by decide +kernel)) (by decide) (by decide) (by decide)).mpr
    ⟨.operator, .cons (digit _ _ rfl) (.cons (.binop .plus ?_ (by decide) (by decide) (by decide))
      (.cons (digit _ _ rfl) (.nil _)))⟩
  trivial

/-- `1==2` is parsed, and with a blank before the 2 it is not. -/
theorem blank_after_equals : ¬ ∀ (text gap : Str) (expr : ArithmExpr) (lexemes : List Lexeme), '\x00' ∉ text →
    (∀ c ∈ text, isSpace c = false) → IsParsed text expr → IsGap gap → Gapped lexemes →
      SameTokens lexemes (arithmLexemes text) → IsParsed (gap ++ lexemesText lexemes) expr := by
  intro claim
  have ended : (mrshParseArithmExpr 8 (mrshParserWithData "1==2".toList)).value? =
      some (some (.binop .deq (.literal 1) (.literal 2))) := by
    decide +kernel
  have spaced := claim "1==2".toList [] _ [⟨['1'], []⟩, ⟨['=', '='], [' ']⟩, ⟨['2'], []⟩] (by decide) (by decide)
    (isParsed_of_done (Outcome.eq_done_of_value? ended) (by decide +kernel)) (by decide) (by decide) (by decide)
  have failed : (mrshParseArithmExpr 8 (mrshParserWithData "1== 2".toList)).value? = some none := by decide +kernel
  cases (spaced.agrees (Outcome.eq_done_of_value? failed)).1

end Mrsh
