import Mrsh.Parser.ArithmSoundness

namespace Mrsh

open Mrsh.Data

/-! # Renderings of arithmetic expressions

A rendering writes the tokens of an expression in their order, with any parentheses
around its parts. The parser returns an expression that its text does not render
where it has read something before the alternative that succeeds.
-/

variable {text rest : Str} {fuel : Nat} {expr parsed : ArithmExpr} {after : Parser}

/-! ## Every text has one expression -/

theorem IsParsed.agrees {result : Option ArithmExpr} (isParsed : IsParsed text expr)
    (ended : mrshParseArithmExpr fuel (mrshParserWithData text) = .done result after) :
    result = some expr ∧ after.error = none := by
  obtain ⟨enough, parses⟩ := isParsed
  obtain ⟨other, parse, noError⟩ := parses (fuel + enough) (by omega)
  have same := mrshParseArithmExpr_extends (Nat.le_add_right fuel enough) _ _ _ ended
  rw [parse] at same
  cases same
  exact ⟨rfl, noError⟩

theorem isParsed_iff (visible : '\x00' ∉ text) : IsParsed text expr ↔ IsExpression false text expr := by
  refine ⟨fun isParsed => ?_, IsExpression.isParsed⟩
  obtain ⟨enough, parses⟩ := isParsed
  obtain ⟨after, parse, noError⟩ := parses enough (Nat.le_refl _)
  exact mrshParseArithmExpr_sound visible parse noError

theorem IsParsed.unique (isParsed : IsParsed text expr) (other : IsParsed text parsed) : expr = parsed := by
  obtain ⟨enough, parses⟩ := other
  obtain ⟨after, parse, -⟩ := parses enough (Nat.le_refl _)
  exact (Option.some.inj (isParsed.agrees parse).1).symm

/-! ## Renderings -/

/-- The tokens of an expression, with parentheses around some of its parts and any whitespace between them. -/
inductive Rendering : List Lexeme → ArithmExpr → Prop where
  | literal {digits gap : Str} {value : Int} (nonempty : digits ≠ []) (digit : ∀ c ∈ digits, c.isDigit = true)
      (scanned : strtol 0 digits = ⟨value, [], false⟩) (space : IsGap gap) : Rendering [⟨digits, gap⟩] (.literal value)
  | var {name gap : Str} (isName : ArithmExpr.IsWritable.IsName name) (space : IsGap gap) :
      Rendering [⟨name, gap⟩] (.var name)
  | unop {gap : Str} {lexemes : List Lexeme} {body : ArithmExpr} (type : ArithmUnopType) (space : IsGap gap)
      (operand : Rendering lexemes body) : Rendering (⟨[unopChar type], gap⟩ :: lexemes) (.unop type body)
  | binop {gap : Str} {lexemes others : List Lexeme} {left right : ArithmExpr} (type : ArithmBinopType)
      (space : IsGap gap) (leftOperand : Rendering lexemes left) (rightOperand : Rendering others right) :
      Rendering (lexemes ++ ⟨(binopToken type).str, gap⟩ :: others) (.binop type left right)
  | cond {gap gapElse : Str} {lexemes bodyLexemes elseLexemes : List Lexeme} {condition body elsePart : ArithmExpr}
      (space : IsGap gap) (spaceElse : IsGap gapElse) (tested : Rendering lexemes condition)
      (chosen : Rendering bodyLexemes body) (otherwise : Rendering elseLexemes elsePart) :
      Rendering (lexemes ++ ⟨['?'], gap⟩ :: (bodyLexemes ++ ⟨[':'], gapElse⟩ :: elseLexemes))
        (.cond condition body elsePart)
  | assign {name gap gapOp : Str} {lexemes : List Lexeme} {value : ArithmExpr} (op : ArithmAssignOp)
      (isName : ArithmExpr.IsWritable.IsName name) (space : IsGap gap) (spaceOp : IsGap gapOp)
      (assigned : Rendering lexemes value) :
      Rendering (⟨name, gap⟩ :: ⟨assignStr op, gapOp⟩ :: lexemes) (.assign op name value)
  | paren {gap gapAfter : Str} {lexemes : List Lexeme} {expr : ArithmExpr} (space : IsGap gap)
      (spaceAfter : IsGap gapAfter) (inside : Rendering lexemes expr) :
      Rendering (⟨['('], gap⟩ :: (lexemes ++ [⟨[')'], gapAfter⟩])) expr

/-- The text renders the expression. -/
def Renders (expr : ArithmExpr) (text : Str) : Prop :=
  ∃ gap lexemes, IsGap gap ∧ Rendering lexemes expr ∧ text = gap ++ lexemesText lexemes

theorem levelOps_token {level : Nat} {op : OpToken} (member : op ∈ levelOps level) : binopToken op.type = op := by
  match level with
  | 0 => simp [levelOps] at member
  | 1 | 2 | 3 | 4 | 5 | 6 | 7 | 8 | 9 | 10 =>
      simp only [levelOps, List.mem_cons, List.not_mem_nil, or_false] at member
      rcases member with rfl | rfl | rfl | rfl | rfl <;> rfl
  | _ + 11 => simp [levelOps] at member

/-- The tokens of a part are a rendering. What a level goes on with renders it together with its first operands. -/
def PartRenders (lexemes : List Lexeme) (expr : ArithmExpr) : ExprPart → Prop
  | .more _ left => ∀ before, Rendering before left → Rendering (before ++ lexemes) expr
  | _ => Rendering lexemes expr

theorem Phrase.renders {part : ExprPart} {isOpen : Bool} {lexemes : List Lexeme}
    (phrase : Phrase true part isOpen lexemes expr) : PartRenders lexemes expr part := by
  induction phrase with
  | literal empty isClean nonempty digit scanned space =>
      rw [isClean rfl]
      exact .literal nonempty digit scanned space
  | var empty isClean isName space =>
      rw [isClean rfl]
      exact .var isName space
  | unop type empty isClean operand ih =>
      rw [isClean rfl]
      exact .unop type isGap_nil ih
  | paren space spaceAfter inside ih => exact .paren space spaceAfter ih
  | chain low operand continues closed ih restIh => exact restIh _ ih
  | done left =>
      intro before rendering
      rw [List.append_nil]
      exact rendering
  | @more level op gap isOpen restOpen lexemes rest left right expr member space operand continues closed ih restIh =>
      intro before rendering
      have first := Rendering.binop op.type space rendering ih
      rw [levelOps_token member] at first
      have whole := restIh _ first
      rw [List.append_assoc, List.cons_append] at whole
      exact whole
  | @binop level op gap isOpen lexemes others left right high bounded member space skipped operand operands ih
    othersIh =>
      have joined := Rendering.binop op.type space ih othersIh
      rw [levelOps_token member] at joined
      exact joined
  | up high bounded operand ih => exact ih
  | value operand ih => exact ih
  | cond operand chosen otherwise ih chosenIh otherwiseIh => exact .cond isGap_nil isGap_nil ih chosenIh otherwiseIh
  | whole inside unassigned ih => exact ih
  | assign op isName assigned ih => exact .assign op isName isGap_nil isGap_nil ih

theorem IsExpression.renders (expression : IsExpression true text expr) : Renders expr text := by
  obtain ⟨gap, isOpen, lexemes, space, phrase, split⟩ := expression
  exact ⟨gap, lexemes, space, phrase.renders, split⟩

/-! ## Parentheses around nothing -/

/-- In the text, no parenthesis is closed directly after it is opened. `opened` is whether the last character before the
text is an opening one; whitespace does not count. -/
def noEmptyPair (opened : Bool) : Str → Bool
  | [] => true
  | c :: rest =>
      if isSpace c then noEmptyPair opened rest else !(opened && c == ')') && noEmptyPair (c == '(') rest

/-- The text leaves the scan as after a character that opens nothing. -/
def Transparent (text : Str) : Prop := ∀ opened rest, noEmptyPair opened (text ++ rest) = noEmptyPair false rest

/-- Wherever the text stands, there are parentheses around nothing. -/
def HasEmptyPair (text : Str) : Prop := ∀ opened rest, noEmptyPair opened (text ++ rest) = false

theorem noEmptyPair_gap {gap : Str} (space : IsGap gap) (opened : Bool) (rest : Str) :
    noEmptyPair opened (gap ++ rest) = noEmptyPair opened rest := by
  induction gap with
  | nil => rfl
  | cons c gap ih =>
      rw [List.cons_append, noEmptyPair, if_pos (space c List.mem_cons_self)]
      exact ih fun d member => space d (List.mem_cons_of_mem c member)

theorem noEmptyPair_suffix (opened : Bool) (before : Str) (whole : noEmptyPair opened (before ++ rest) = true) :
    ∃ last, noEmptyPair last rest = true := by
  induction before generalizing opened with
  | nil => exact ⟨opened, whole⟩
  | cons c before ih =>
      rw [List.cons_append, noEmptyPair] at whole
      split at whole
      · exact ih _ whole
      · rw [Bool.and_eq_true] at whole
        exact ih _ whole.2

theorem HasEmptyPair.before (hasPair : HasEmptyPair text) (before : Str) : HasEmptyPair (before ++ text) := by
  intro opened rest
  rw [List.append_assoc, Bool.eq_false_iff]
  intro whole
  obtain ⟨last, none⟩ := noEmptyPair_suffix opened before whole
  rw [hasPair] at none
  cases none

theorem HasEmptyPair.behind (hasPair : HasEmptyPair text) (behind : Str) : HasEmptyPair (text ++ behind) := by
  intro opened rest
  rw [List.append_assoc]
  exact hasPair opened _

theorem Transparent.append {behind : Str} (transparent : Transparent text) (behindTransparent : Transparent behind) :
    Transparent (text ++ behind) := by
  intro opened rest
  rw [List.append_assoc, transparent, behindTransparent]

theorem Transparent.gap {gap : Str} (transparent : Transparent text) (space : IsGap gap) :
    Transparent (text ++ gap) := by
  intro opened rest
  rw [List.append_assoc, transparent, noEmptyPair_gap space]

theorem transparent_token {str : Str} (nonempty : str ≠ []) (visible : ∀ c ∈ str, isSpace c = false)
    (plain : '(' ∉ str ∧ ')' ∉ str) : Transparent str := by
  intro opened rest
  induction str generalizing opened with
  | nil => exact absurd rfl nonempty
  | cons c str ih =>
      have notOpening : (c == '(') = false := by
        rw [beq_eq_false_iff_ne]
        rintro rfl
        exact plain.1 List.mem_cons_self
      have notClosing : (c == ')') = false := by
        rw [beq_eq_false_iff_ne]
        rintro rfl
        exact plain.2 List.mem_cons_self
      rw [List.cons_append, noEmptyPair, if_neg (by simp [visible c List.mem_cons_self]), notOpening, notClosing,
        Bool.and_false, Bool.not_false, Bool.true_and]
      by_cases last : str = []
      · rw [last, List.nil_append]
      · exact ih last (fun d member => visible d (List.mem_cons_of_mem c member))
          ⟨fun member => plain.1 (List.mem_cons_of_mem c member), fun member => plain.2 (List.mem_cons_of_mem c member)⟩
          false

theorem nameChars_transparent {str : Str} (nonempty : str ≠ [])
    (nameChar : ∀ c ∈ str, (c == '_' || c.isAlphanum) = true) : Transparent str := by
  refine transparent_token nonempty (fun c member => (nameChar_token (nameChar c member) []).2.1) ⟨?_, ?_⟩ <;>
    (intro member; cases nameChar _ member)

theorem digits_transparent {digits : Str} (nonempty : digits ≠ []) (digit : ∀ c ∈ digits, c.isDigit = true) :
    Transparent digits :=
  nameChars_transparent nonempty fun c member => by simp [Char.isAlphanum, digit c member]

theorem name_transparent {name : Str} (isName : ArithmExpr.IsWritable.IsName name) : Transparent name :=
  nameChars_transparent isName.1 (nameLength_chars true _ isName.2)

theorem binopToken_transparent (type : ArithmBinopType) : Transparent (binopToken type).str := by
  cases type <;> exact transparent_token (by decide) (by decide) (by decide)

theorem Rendering.transparent {lexemes : List Lexeme} (rendering : Rendering lexemes expr) :
    Transparent (lexemesText lexemes) := by
  induction rendering with
  | literal nonempty digit scanned space =>
      rw [lexemesText_cons, lexemesText_nil, List.append_nil]
      exact (digits_transparent nonempty digit).gap space
  | var isName space =>
      rw [lexemesText_cons, lexemesText_nil, List.append_nil]
      exact (name_transparent isName).gap space
  | unop type space operand ih =>
      rw [lexemesText_cons]
      have sign : Transparent [unopChar type] := by
        cases type <;> exact transparent_token (by decide) (by decide) (by decide)
      exact (sign.gap space).append ih
  | binop type space leftOperand rightOperand ih rightIh =>
      rw [lexemesText_append, lexemesText_cons]
      exact ih.append (((binopToken_transparent type).gap space).append rightIh)
  | cond space spaceElse tested chosen otherwise ih chosenIh otherwiseIh =>
      rw [lexemesText_append, lexemesText_cons, lexemesText_append, lexemesText_cons]
      have mark : Transparent ['?'] := transparent_token (by decide) (by decide) (by decide)
      have colon : Transparent [':'] := transparent_token (by decide) (by decide) (by decide)
      exact ih.append ((mark.gap space).append (chosenIh.append ((colon.gap spaceElse).append otherwiseIh)))
  | assign op isName space spaceOp assigned ih =>
      rw [lexemesText_cons, lexemesText_cons]
      have sign : Transparent (assignStr op) := by
        cases op <;> exact transparent_token (by decide) (by decide) (by decide)
      exact ((name_transparent isName).gap space).append ((sign.gap spaceOp).append ih)
  | @paren gap gapAfter lexemes expr space spaceAfter inside ih =>
      intro opened rest
      have split : lexemesText (⟨['('], gap⟩ :: (lexemes ++ [⟨[')'], gapAfter⟩])) ++ rest =
          '(' :: (gap ++ (lexemesText lexemes ++ ')' :: (gapAfter ++ rest))) := by simp
      have opens : noEmptyPair opened ('(' :: (gap ++ (lexemesText lexemes ++ ')' :: (gapAfter ++ rest)))) =
          noEmptyPair true (gap ++ (lexemesText lexemes ++ ')' :: (gapAfter ++ rest))) := by
        rw [noEmptyPair, if_neg (by decide), show ('(' == ')') = false from rfl, Bool.and_false]
        rfl
      have closes : noEmptyPair false (')' :: (gapAfter ++ rest)) = noEmptyPair false (gapAfter ++ rest) := by
        rw [noEmptyPair, if_neg (by decide)]
        rfl
      rw [split, opens, noEmptyPair_gap space, ih, closes, noEmptyPair_gap spaceAfter]

theorem EmptyPairs.hasEmptyPair {pairs : List Lexeme} (empty : EmptyPairs pairs) :
    pairs = [] ∨ HasEmptyPair (lexemesText pairs) := by
  induction empty with
  | nothing => exact .inl rfl
  | @pair gap inside space pairs ih =>
      refine .inr ?_
      rcases ih with rfl | hasPair
      · intro opened rest
        have split : lexemesText (⟨['('], gap⟩ :: ([] ++ [⟨[')'], []⟩])) ++ rest = '(' :: (gap ++ ')' :: rest) := by
          simp
        have closes : noEmptyPair true (')' :: rest) = false := by
          rw [noEmptyPair, if_neg (by decide)]
          rfl
        rw [split, noEmptyPair, if_neg (by decide), show ('(' == '(') = true from rfl, noEmptyPair_gap space, closes,
          Bool.and_false]
      · rw [lexemesText_cons, lexemesText_append]
        exact (hasPair.behind _).before _

theorem Phrase.clean_or {part : ExprPart} {isOpen : Bool} {lexemes : List Lexeme}
    (phrase : Phrase false part isOpen lexemes expr) :
    Phrase true part isOpen lexemes expr ∨ HasEmptyPair (lexemesText lexemes) := by
  induction phrase with
  | literal empty isClean nonempty digit scanned space =>
      rcases empty.hasEmptyPair with rfl | hasPair
      · exact .inl (.literal empty (fun _ => rfl) nonempty digit scanned space)
      · rw [lexemesText_append]
        exact .inr (hasPair.behind _)
  | var empty isClean isName space =>
      rcases empty.hasEmptyPair with rfl | hasPair
      · exact .inl (.var empty (fun _ => rfl) isName space)
      · rw [lexemesText_append]
        exact .inr (hasPair.behind _)
  | unop type empty isClean operand ih =>
      rcases empty.hasEmptyPair with rfl | hasPair
      · rcases ih with clean | hasPair
        · exact .inl (.unop type empty (fun _ => rfl) clean)
        · rw [lexemesText_append, lexemesText_cons]
          exact .inr ((hasPair.before _).before _)
      · rw [lexemesText_append]
        exact .inr (hasPair.behind _)
  | paren space spaceAfter inside ih =>
      rcases ih with clean | hasPair
      · exact .inl (.paren space spaceAfter clean)
      · rw [lexemesText_cons, lexemesText_append]
        exact .inr ((hasPair.behind _).before _)
  | chain low operand continues closed ih restIh =>
      rw [lexemesText_append]
      rcases ih with clean | hasPair
      · rcases restIh with restClean | hasPair
        · exact .inl (.chain low clean restClean closed)
        · exact .inr (hasPair.before _)
      · exact .inr (hasPair.behind _)
  | done left => exact .inl (.done left)
  | more member space operand continues closed ih restIh =>
      rw [lexemesText_cons, lexemesText_append]
      rcases ih with clean | hasPair
      · rcases restIh with restClean | hasPair
        · exact .inl (.more member space clean restClean closed)
        · exact .inr ((hasPair.before _).before _)
      · exact .inr ((hasPair.behind _).before _)
  | up high bounded operand ih => exact ih.imp_left (.up high bounded)
  | binop high bounded member space skipped operand operands ih othersIh =>
      rw [lexemesText_append, lexemesText_cons]
      rcases ih with clean | hasPair
      · rcases othersIh with othersClean | hasPair
        · exact .inl (.binop high bounded member space skipped clean othersClean)
        · exact .inr ((hasPair.before _).before _)
      · exact .inr (hasPair.behind _)
  | value operand ih => exact ih.imp_left .value
  | cond operand chosen otherwise ih chosenIh otherwiseIh =>
      rw [lexemesText_append, lexemesText_cons, lexemesText_append, lexemesText_cons]
      rcases ih with clean | hasPair
      · rcases chosenIh with chosenClean | hasPair
        · rcases otherwiseIh with otherwiseClean | hasPair
          · exact .inl (.cond clean chosenClean otherwiseClean)
          · exact .inr ((((hasPair.before _).before _).before _).before _)
        · exact .inr (((hasPair.behind _).before _).before _)
      · exact .inr (hasPair.behind _)
  | whole inside unassigned ih => exact ih.imp_left fun clean => .whole clean unassigned
  | assign op isName assigned ih =>
      rw [lexemesText_cons, lexemesText_cons]
      exact (ih.imp (.assign op isName) fun hasPair => (hasPair.before _).before _)

/-- An expression that its text renders is read without parentheses around nothing. -/
theorem Renders.isExpression (renders : Renders expr text) (expression : IsExpression false text parsed) :
    IsExpression true text parsed := by
  obtain ⟨gap, isOpen, lexemes, space, phrase, split⟩ := expression
  rcases phrase.clean_or with clean | hasPair
  · exact ⟨gap, isOpen, lexemes, space, clean, split⟩
  · obtain ⟨otherGap, others, otherSpace, rendering, otherSplit⟩ := renders
    have none := rendering.transparent false []
    have some := hasPair.before gap false []
    rw [List.append_nil] at none some
    rw [← split, otherSplit, noEmptyPair_gap otherSpace, none] at some
    cases some

/-! ## What is returned -/

/-- An expression that the parser returns is rendered by its text and comes without an error exactly if the text is an
expression. -/
theorem mrshParseArithmExpr_renders_iff (visible : '\x00' ∉ text)
    (returned : mrshParseArithmExpr fuel (mrshParserWithData text) = .done (some expr) after) :
    (after.error = none ∧ Renders expr text) ↔ ∃ parsed, IsExpression true text parsed := by
  constructor
  · rintro ⟨noError, renders⟩
    exact ⟨expr, renders.isExpression (mrshParseArithmExpr_sound visible returned noError)⟩
  · rintro ⟨parsed, expression⟩
    obtain ⟨same, noError⟩ := expression.isParsed.agrees returned
    cases same
    exact ⟨noError, expression.renders⟩

theorem mrshParseArithmExpr_renders_sum :
    ∃ parsed, IsExpression true "1+2".toList parsed := by
  have one : Rendering [⟨['1'], []⟩] (.literal 1) := .literal (by decide) (by decide) (by decide) isGap_nil
  have two : Rendering [⟨['2'], []⟩] (.literal 2) := .literal (by decide) (by decide) (by decide) isGap_nil
  have ended : (mrshParseArithmExpr 6 (mrshParserWithData "1+2".toList)).value? =
      some (some (.binop .plus (.literal 1) (.literal 2))) := by
    decide +kernel
  exact (mrshParseArithmExpr_renders_iff (by decide) (Outcome.eq_done_of_value? ended)).mp
    ⟨by decide +kernel, [], _, isGap_nil, .binop .plus isGap_nil one two, by decide⟩

/-- From `(1 2`, the parser returns 2, and reports that a parenthesis is missing. -/
theorem unclosed_parenthesis_returned : ¬ ∀ (text : Str) (fuel : Nat) (expr : ArithmExpr) (after : Parser),
    '\x00' ∉ text → mrshParseArithmExpr fuel (mrshParserWithData text) = .done (some expr) after →
      after.error = none ∧ Renders expr text := by
  intro claim
  have ended : (mrshParseArithmExpr 6 (mrshParserWithData "(1 2".toList)).value? = some (some (.literal 2)) := by
    decide +kernel
  have noError := (claim _ 6 _ _ (by decide) (Outcome.eq_done_of_value? ended)).1
  revert noError
  decide +kernel

end Mrsh
