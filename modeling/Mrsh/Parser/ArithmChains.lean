import Mrsh.Parser.ArithmSpacing

namespace Mrsh

open Mrsh.Data

/-! # Chains of operators

Operators of one level between literals and parenthesised expressions. The two lowest
levels nest them to the left, as loops do; the other levels read their right operand
by recursion and nest them to the right.
-/

/-- A literal or a parenthesised expression, as it is written. -/
inductive ChainOperand where
  | literal (digits : Str) (value : Int)
  | paren (text : Str) (expr : ArithmExpr)

namespace ChainOperand

def text : ChainOperand → Str
  | .literal digits _ => digits
  | .paren text _ => '(' :: (text ++ [')'])

def expr : ChainOperand → ArithmExpr
  | .literal _ value => .literal value
  | .paren _ expr => expr

/-- The digits are a number in range, and the text between the parentheses is an expression. -/
def Valid : ChainOperand → Prop
  | .literal digits value => digits ≠ [] ∧ (∀ c ∈ digits, c.isDigit = true) ∧ strtol 0 digits = ⟨value, [], false⟩
  | .paren text expr => '\x00' ∉ text ∧ IsParsed text expr

def lexemes (gap : Str) : ChainOperand → List Lexeme
  | .literal digits _ => [⟨digits, gap⟩]
  | .paren text _ => ⟨['('], text.takeWhile isSpace⟩ :: (arithmLexemes text ++ [⟨[')'], gap⟩])

end ChainOperand

/-- An operator with its right operand and the whitespace around the operator. -/
structure ChainLink where
  before : Str
  op : OpToken
  after : Str
  operand : ChainOperand

/-- The operator is of the level. -/
structure ChainLink.Valid (level : Nat) (link : ChainLink) : Prop where
  member : link.op ∈ levelOps level
  before : IsGap link.before
  after : IsGap link.after
  operand : link.operand.Valid

def chainText (first : ChainOperand) (links : List ChainLink) : Str :=
  first.text ++ links.flatMap fun link => link.before ++ (link.op.str ++ (link.after ++ link.operand.text))

def leftChain (left : ArithmExpr) (links : List ChainLink) : ArithmExpr :=
  links.foldl (fun left link => .binop link.op.type left link.operand.expr) left

def rightChain (first : ArithmExpr) : List ChainLink → ArithmExpr
  | [] => first
  | link :: links => .binop link.op.type first (rightChain link.operand.expr links)

/-! ## The tokens of a chain -/

/-- The whitespace before the first operator. -/
def gapBefore : List ChainLink → Str
  | [] => []
  | link :: _ => link.before

def linkLexemes : List ChainLink → List Lexeme
  | [] => []
  | link :: links => ⟨link.op.str, link.after⟩ :: (link.operand.lexemes (gapBefore links) ++ linkLexemes links)

def chainLexemes (first : ChainOperand) (links : List ChainLink) : List Lexeme :=
  first.lexemes (gapBefore links) ++ linkLexemes links

variable {level : Nat} {first operand : ChainOperand} {link : ChainLink} {links : List ChainLink} {gap : Str}

theorem takeWhile_isGap (text : Str) : IsGap (text.takeWhile isSpace) :=
  fun c member => List.all_eq_true.mp List.all_takeWhile c member

theorem IsExpression.split {clean : Bool} {text : Str} {expr : ArithmExpr} (expression : IsExpression clean text expr) :
    text = text.takeWhile isSpace ++ lexemesText (arithmLexemes text) := by
  obtain ⟨gap, isOpen, space, phrase, split⟩ := isExpression_iff.mp expression
  obtain ⟨last, scans, behind⟩ := phrase.scans
  have visible := scans.visible behind rfl
  have start : text.takeWhile isSpace = gap := by
    conv => lhs; rw [split]
    exact takeWhile_gap space visible
  rw [start]
  exact split

namespace ChainOperand

theorem lexemesText (valid : operand.Valid) (gap : Str) :
    Mrsh.lexemesText (operand.lexemes gap) = operand.text ++ gap := by
  cases operand with
  | literal digits value => simp [lexemes, text]
  | paren text expr =>
      have split := ((isParsed_iff valid.1).mp valid.2).split
      rw [lexemes, ChainOperand.text, lexemesText_cons, lexemesText_append, lexemesText_cons, lexemesText_nil]
      conv => rhs; rw [split]
      simp

theorem phrase (valid : operand.Valid) (space : IsGap gap) :
    Phrase false (.level 0) false (operand.lexemes gap) operand.expr := by
  cases operand with
  | literal digits value => exact .literal .nothing Bool.noConfusion valid.1 valid.2.1 valid.2.2 space
  | paren text expr =>
      obtain ⟨_, isOpen, -, phrase, -⟩ := isExpression_iff.mp ((isParsed_iff valid.1).mp valid.2)
      exact .paren (takeWhile_isGap text) space phrase

theorem sameTokens (operand : ChainOperand) (gap other : Str) :
    SameTokens (operand.lexemes gap) (operand.lexemes other) := by
  cases operand <;> simp [lexemes, SameTokens]

end ChainOperand

theorem chain_gapBefore (valid : ∀ link ∈ links, link.Valid level) : IsGap (gapBefore links) := by
  cases links with
  | nil => exact isGap_nil
  | cons link links => exact (valid link List.mem_cons_self).before

theorem linkLexemes_text (valid : ∀ link ∈ links, link.Valid level) :
    gapBefore links ++ lexemesText (linkLexemes links) =
      links.flatMap fun link => link.before ++ (link.op.str ++ (link.after ++ link.operand.text)) := by
  induction links with
  | nil => rfl
  | cons link links ih =>
      rw [List.forall_mem_cons] at valid
      rw [linkLexemes, gapBefore, lexemesText_cons, lexemesText_append, ChainOperand.lexemesText valid.1.operand,
        List.flatMap_cons, ← ih valid.2]
      simp

theorem chainLexemes_text (firstValid : first.Valid) (valid : ∀ link ∈ links, link.Valid level) :
    lexemesText (chainLexemes first links) = chainText first links := by
  rw [chainLexemes, lexemesText_append, ChainOperand.lexemesText firstValid, List.append_assoc, linkLexemes_text valid,
    chainText]

/-! ## The phrases of a chain -/

theorem links_more (low : level < 2) (valid : ∀ link ∈ links, link.Valid (level + 1)) (left : ArithmExpr) :
    Phrase false (.more level left) false (linkLexemes links) (leftChain left links) := by
  induction links generalizing left with
  | nil => exact .done left
  | cons link links ih =>
      rw [List.forall_mem_cons] at valid
      have operand :=
        (ChainOperand.phrase valid.1.operand (chain_gapBefore valid.2)).climb (Nat.zero_le level) (by omega)
      exact .more valid.1.member valid.1.after operand (ih valid.2 _) Bool.noConfusion

theorem chain_left (low : level < 2) (firstValid : first.Valid) (valid : ∀ link ∈ links, link.Valid (level + 1)) :
    Phrase false (.level (level + 1)) false (chainLexemes first links) (leftChain first.expr links) := by
  have operand := (ChainOperand.phrase firstValid (chain_gapBefore valid)).climb (Nat.zero_le level) (by omega)
  exact .chain low operand (links_more low valid first.expr) Bool.noConfusion

theorem chain_right (high : 2 ≤ level) (bounded : level < 10) (firstValid : first.Valid)
    (valid : ∀ link ∈ links, link.Valid (level + 1)) (tight : level + 1 = 5 → ∀ link ∈ links, link.after = []) :
    Phrase false (.level (level + 1)) false (chainLexemes first links) (rightChain first.expr links) := by
  induction links generalizing first with
  | nil =>
      rw [chainLexemes, linkLexemes, List.append_nil]
      exact (ChainOperand.phrase firstValid isGap_nil).climb (Nat.zero_le _) (by omega)
  | cons link links ih =>
      rw [List.forall_mem_cons] at valid
      simp only [List.forall_mem_cons] at tight
      have operand := (ChainOperand.phrase firstValid valid.1.before).climb (Nat.zero_le level) (by omega)
      have rest := ih valid.1.operand valid.2 fun isLevel => (tight isLevel).2
      exact .binop high bounded valid.1.member valid.1.after (fun isLevel => (tight isLevel).1) operand rest

theorem chain_uncompared (firstValid : first.Valid) : ¬ ComparedName (chainLexemes first links) := by
  rintro ⟨name, gap, more, isName, same⟩
  cases first with
  | literal digits value =>
      obtain ⟨rfl, -⟩ : digits = name ∧ _ := by
        rw [chainLexemes, ChainOperand.lexemes, List.singleton_append, List.cons.injEq] at same
        exact ⟨congrArg Lexeme.str same.1, trivial⟩
      obtain ⟨c, str, rfl⟩ := List.exists_cons_of_ne_nil firstValid.1
      have whole := isName.2
      simp [nameLength, firstValid.2.1 c List.mem_cons_self] at whole
  | paren text expr =>
      rw [chainLexemes, ChainOperand.lexemes, List.cons_append, List.cons.injEq] at same
      have str : ['('] = name := congrArg Lexeme.str same.1
      subst str
      exact not_name rfl isName

theorem chain_whole {expr : ArithmExpr} (bounded : level < 10) (firstValid : first.Valid)
    (phrase : Phrase false (.level (level + 1)) false (chainLexemes first links) expr) :
    Phrase false .whole true (chainLexemes first links) expr :=
  .whole (.value (phrase.climb (by omega) (Nat.le_refl 10))) (chain_uncompared firstValid)

theorem chain_expression {expr : ArithmExpr} (bounded : level < 10) (firstValid : first.Valid)
    (valid : ∀ link ∈ links, link.Valid (level + 1))
    (phrase : Phrase false (.level (level + 1)) false (chainLexemes first links) expr) :
    IsExpression false (chainText first links) expr := by
  refine ⟨[], true, _, isGap_nil, chain_whole bounded firstValid phrase, ?_⟩
  rw [List.nil_append, chainLexemes_text firstValid valid]

/-! ## Which way a chain is nested -/

theorem leftChain_concat (left : ArithmExpr) (links : List ChainLink) (link : ChainLink) :
    leftChain left (links ++ [link]) = .binop link.op.type (leftChain left links) link.operand.expr := by
  simp [leftChain]

theorem leftChain_larger (left : ArithmExpr) (links : List ChainLink) :
    sizeOf left ≤ sizeOf (leftChain left links) := by
  induction links generalizing left with
  | nil => exact Nat.le_refl _
  | cons link links ih =>
      have larger := ih (.binop link.op.type left link.operand.expr)
      have smaller : sizeOf left ≤ sizeOf (ArithmExpr.binop link.op.type left link.operand.expr) := by simp; omega
      exact Nat.le_trans smaller larger

theorem leftChain_ne_rightChain (first : ArithmExpr) (several : 2 ≤ links.length) :
    leftChain first links ≠ rightChain first links := by
  intro same
  have nonempty : links ≠ [] := by
    rintro rfl
    simp at several
  obtain ⟨init, last, rfl⟩ := (List.eq_nil_or_concat links).resolve_left nonempty
  obtain ⟨link, more, rfl⟩ : ∃ link more, init = link :: more := by
    apply List.exists_cons_of_ne_nil
    rintro rfl
    simp at several
  rw [List.concat_eq_append] at same
  rw [leftChain_concat, List.cons_append, rightChain, ArithmExpr.binop.injEq] at same
  have larger := leftChain_larger (.binop link.op.type first link.operand.expr) more
  have whole : leftChain first (link :: more) = leftChain (.binop link.op.type first link.operand.expr) more := rfl
  rw [← whole, same.2.1] at larger
  simp at larger
  omega

theorem leftChain_single (first : ArithmExpr) (few : links.length ≤ 1) :
    leftChain first links = rightChain first links := by
  match links with
  | [] => rfl
  | [link] => rfl
  | _ :: _ :: _ => simp at few

/-! ## The tokens without whitespace behind their operators -/

def tightLink (link : ChainLink) : ChainLink := { link with after := [] }

theorem tightLinks_same (links : List ChainLink) :
    SameTokens (linkLexemes links) (linkLexemes (links.map tightLink)) := by
  induction links with
  | nil => rfl
  | cons link links ih =>
      rw [List.map_cons, linkLexemes, linkLexemes, SameTokens, List.map_cons, List.map_cons, List.map_append,
        List.map_append, ih, link.operand.sameTokens (gapBefore links) (gapBefore (links.map tightLink))]
      rfl

theorem linkLexemes_gapped (valid : ∀ link ∈ links, link.Valid level) : Gapped (linkLexemes links) := by
  induction links with
  | nil => exact gapped_nil
  | cons link links ih =>
      rw [List.forall_mem_cons] at valid
      rw [linkLexemes, gapped_cons, gapped_append]
      exact ⟨valid.1.after, (ChainOperand.phrase valid.1.operand (chain_gapBefore valid.2)).gapped, ih valid.2⟩

theorem links_tight {place last : TokenPlace} (behind : place.Behind) (valid : ∀ link ∈ links, link.Valid level)
    (scans : Scans place (linkLexemes links) last) : level = 5 → ∀ link ∈ links, link.after = [] := by
  intro isLevel
  induction links generalizing place with
  | nil =>
      intro link member
      cases member
  | cons link links ih =>
      rw [List.forall_mem_cons] at valid ⊢
      cases scans with
      | cons step scans =>
          obtain ⟨rfl, tight⟩ := step.level_next valid.1.member behind
          obtain ⟨middle, operandScans, rest⟩ := scans_append.mp scans
          have term := ChainOperand.phrase valid.1.operand (chain_gapBefore valid.2)
          exact ⟨tight isLevel, ih (term.respace rfl operandScans ⟨false, rfl⟩).2 valid.2 rest⟩

/-- A chain is an expression only if no whitespace is behind `==` and `!=`. -/
theorem chain_tight {expr : ArithmExpr} (high : 2 ≤ level) (bounded : level < 10) (firstValid : first.Valid)
    (valid : ∀ link ∈ links, link.Valid (level + 1)) (expression : IsExpression false (chainText first links) expr) :
    level + 1 = 5 → ∀ link ∈ links, link.after = [] := by
  have tightValid : ∀ link ∈ links.map tightLink, link.Valid (level + 1) := by
    intro link member
    obtain ⟨original, isOriginal, rfl⟩ := List.mem_map.mp member
    have originalValid := valid original isOriginal
    exact ⟨originalValid.member, originalValid.before, isGap_nil, originalValid.operand⟩
  have tight : ∀ link ∈ links.map tightLink, link.after = [] := by
    intro link member
    obtain ⟨original, _, rfl⟩ := List.mem_map.mp member
    rfl
  have gaps : gapBefore (links.map tightLink) = gapBefore links := by
    cases links <;> rfl
  have same : SameTokens (chainLexemes first links) (chainLexemes first (links.map tightLink)) := by
    rw [chainLexemes, chainLexemes, gaps, SameTokens, List.map_append, List.map_append, tightLinks_same]
  have term := ChainOperand.phrase firstValid (chain_gapBefore valid)
  have gapped : Gapped (chainLexemes first links) := gapped_append.mpr ⟨term.gapped, linkLexemes_gapped valid⟩
  have phrase := chain_whole bounded firstValid (chain_right high bounded firstValid tightValid fun _ => tight)
  obtain ⟨_, _, -, whole, -⟩ := isExpression_iff.mp expression
  rw [← chainLexemes_text firstValid valid, ← List.nil_append (lexemesText (chainLexemes first links)),
    phrase.tokens same gapped isGap_nil] at whole
  obtain ⟨last, scans, -⟩ := whole.scans
  obtain ⟨middle, firstScans, linkScans⟩ := scans_append.mp scans
  exact links_tight (term.respace rfl firstScans ⟨true, rfl⟩).2 valid linkScans

/-! ## Chains of any length -/

theorem ChainOperand.visible (valid : operand.Valid) : '\x00' ∉ operand.text := by
  cases operand with
  | literal digits value =>
      intro member
      cases valid.2.1 _ member
  | paren text expr => simpa [ChainOperand.text] using valid.1

theorem chain_visible (firstValid : first.Valid) (valid : ∀ link ∈ links, link.Valid level) :
    '\x00' ∉ chainText first links := by
  rw [chainText, List.mem_append, not_or, List.mem_flatMap]
  refine ⟨ChainOperand.visible firstValid, ?_⟩
  rintro ⟨link, isLink, member⟩
  have linkValid := valid link isLink
  simp only [List.mem_append] at member
  rcases member with inBefore | inOp | inAfter | inOperand
  · exact linkValid.before.visible inBefore
  · exact levelOps_visible level _ linkValid.member inOp
  · exact linkValid.after.visible inAfter
  · exact ChainOperand.visible linkValid.operand inOperand

/-- A chain of operators of one level is parsed to operations nested to the left exactly if the level is one of the two
lowest or there is one operator at most, and no whitespace is behind `==` and `!=`. -/
theorem chain_isParsed_iff (positive : 1 ≤ level) (bounded : level ≤ 5) (firstValid : first.Valid)
    (valid : ∀ link ∈ links, link.Valid level) :
    IsParsed (chainText first links) (leftChain first.expr links) ↔
      (level ≤ 2 ∨ links.length ≤ 1) ∧ (level = 5 → ∀ link ∈ links, link.after = []) := by
  obtain ⟨level, rfl⟩ : ∃ less, level = less + 1 := ⟨level - 1, by omega⟩
  have small : level < 10 := by omega
  constructor
  · intro parsed
    have expression := (isParsed_iff (chain_visible firstValid valid)).mp parsed
    by_cases low : level < 2
    · exact ⟨.inl (by omega), fun isLevel => by omega⟩
    · have high : 2 ≤ level := by omega
      have tight := chain_tight high small firstValid valid expression
      refine ⟨.inr ?_, tight⟩
      have right := (chain_expression small firstValid valid (chain_right high small firstValid valid tight)).isParsed
      by_contra several
      exact leftChain_ne_rightChain first.expr (by omega) (parsed.unique right)
  · rintro ⟨lowOrFew, tight⟩
    by_cases low : level < 2
    · exact (chain_expression small firstValid valid (chain_left low firstValid valid)).isParsed
    · have few : links.length ≤ 1 := lowOrFew.resolve_left (by omega)
      rw [leftChain_single first.expr few]
      exact (chain_expression small firstValid valid (chain_right (by omega) small firstValid valid tight)).isParsed

/-- An operator and a literal, without whitespace. -/
def literalLink (op : OpToken) (digits : Str) (value : Int) : ChainLink := ⟨[], op, [], .literal digits value⟩

theorem literalLink_valid {op : OpToken} {digits : Str} {value : Int} (member : op ∈ levelOps level)
    (operand : (ChainOperand.literal digits value).Valid) : (literalLink op digits value).Valid level :=
  ⟨member, isGap_nil, isGap_nil, operand⟩

theorem chain_isParsed_difference :
    IsParsed "5-1-2".toList (.binop .minus (.binop .minus (.literal 5) (.literal 1)) (.literal 2)) := by
  let links := [literalLink ⟨['-'], false, .minus⟩ ['1'] 1, literalLink ⟨['-'], false, .minus⟩ ['2'] 2]
  have valid : (ChainOperand.literal ['5'] 5).Valid := ⟨by decide, by decide, by decide⟩
  refine (chain_isParsed_iff (show 1 ≤ 2 by decide) (by decide) valid (?_ : ∀ link ∈ links, link.Valid 2)).mpr
    ⟨.inl (by decide), fun absurdly => by cases absurdly⟩
  rw [List.forall_mem_cons, List.forall_mem_singleton]
  exact ⟨literalLink_valid (by decide) ⟨by decide, by decide, by decide⟩,
    literalLink_valid (by decide) ⟨by decide, by decide, by decide⟩⟩

/-- `8>>2>>1` is parsed as `8>>(2>>1)`. -/
theorem shifts_nested_right : ¬ ∀ (level : Nat) (first : ChainOperand) (links : List ChainLink), 1 ≤ level → level ≤ 5 →
    first.Valid → (∀ link ∈ links, link.Valid level) →
      IsParsed (chainText first links) (leftChain first.expr links) := by
  intro claim
  have parsed := claim 3 (.literal ['8'] 8)
    [literalLink ⟨['>', '>'], false, .dgreat⟩ ['2'] 2, literalLink ⟨['>', '>'], false, .dgreat⟩ ['1'] 1]
    (by decide) (by decide) ⟨by decide, by decide, by decide⟩ (by
      rw [List.forall_mem_cons, List.forall_mem_singleton]
      exact ⟨literalLink_valid (by decide) ⟨by decide, by decide, by decide⟩,
        literalLink_valid (by decide) ⟨by decide, by decide, by decide⟩⟩)
  have nested : (mrshParseArithmExpr 8 (mrshParserWithData "8>>2>>1".toList)).value? =
      some (some (.binop .dgreat (.literal 8) (.binop .dgreat (.literal 2) (.literal 1)))) := by
    decide +kernel
  cases (parsed.agrees (Outcome.eq_done_of_value? nested)).1

end Mrsh
