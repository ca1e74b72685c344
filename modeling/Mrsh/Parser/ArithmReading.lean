import Mrsh.Parser.ArithmGrammar

namespace Mrsh

open Mrsh.Data

/-! # Reading the arithmetic grammar

Every expression of the grammar is read, with its own tree and without an error.
-/

/-! ## Whitespace -/

variable {text rest : Str} {parser : Parser}

theorem space_visible {c : Char} (space : isSpace c = true) : c ≠ '\x00' := by
  rintro rfl
  revert space
  decide

theorem consumeWhitespaceWithin_gap {gap : Str} (space : IsGap gap) (visible : isSpace (charAt rest 0) = false)
    (fuel : Nat) (scanning : Scanning (gap ++ rest) parser) :
    ∃ after, consumeWhitespaceWithin (gap.length + fuel + 1) parser = .done () after ∧ Scanning rest after := by
  induction gap generalizing parser with
  | nil =>
      refine ⟨parser, ?_, scanning⟩
      apply consumeWhitespaceWithin_none
      rw [scanning.buf]
      exact visible
  | cons c gap ih =>
      have first : isSpace c = true := space c List.mem_cons_self
      have read := parserReadChar_cons scanning.buf (space_visible first)
      have next : Scanning (gap ++ rest) (parser.moved (gap ++ rest) (parser.pos.advance c) false) :=
        ⟨rfl, scanning.settled, scanning.noError⟩
      obtain ⟨after, consumed, atRest⟩ := ih (fun d member => space d (List.mem_cons_of_mem c member)) next
      refine ⟨after, ?_, atRest⟩
      have peeked : parserPeekChar parser = .done c parser := by
        simp [parserPeekChar, parserPeekAt, scanning.buf, charAt]
      rw [List.length_cons, show gap.length + 1 + fuel + 1 = (gap.length + fuel + 1) + 1 by omega,
        consumeWhitespaceWithin, Run.bind_of_done peeked, if_pos first, Run.bind_of_done read]
      exact consumed

theorem Scanning.consumeWhitespace {gap : Str} (scanning : Scanning (gap ++ rest) parser) (space : IsGap gap)
    (visible : isSpace (charAt rest 0) = false) :
    ∃ after, Mrsh.consumeWhitespace parser = .done () after ∧ Scanning rest after := by
  obtain ⟨after, consumed, atRest⟩ := consumeWhitespaceWithin_gap space visible rest.length scanning
  refine ⟨after, ?_, atRest⟩
  rw [Mrsh.consumeWhitespace, bufferFuel, Run.gets_bind, scanning.buf, List.length_append]
  exact consumed

/-! ## Parentheses around nothing -/

section

variable {bound : Nat} {self : Parse (Option ArithmExpr)} {expr : ArithmExpr} {after : Parser}

theorem levelParse_none (level : Nat) (failed : arithmTerm self parser = .done none after) (bounded : 1 ≤ bound) :
    levelParse bound self level parser = .done none after := by
  obtain ⟨bound, rfl⟩ : ∃ less, bound = less + 1 := ⟨bound - 1, by omega⟩
  induction level with
  | zero => exact failed
  | succ level ih =>
      match level with
      | 0 => exact (Run.bind_of_done ih).trans rfl
      | 1 => exact (Run.bind_of_done ih).trans rfl
      | level + 2 =>
          change rightAssociative _ _ _ (bound + 1) parser = _
          rw [rightAssociative]
          exact (Run.bind_of_done ih).trans rfl

theorem ternary_none (fuel : Nat) (failed : arithmTerm self parser = .done none after) (bounded : 1 ≤ bound) :
    ternary bound self (fuel + 1) parser = .done none after := by
  have level := levelParse_none 10 failed bounded
  rw [levelParse_logicalOr] at level
  rw [ternary]
  exact (Run.bind_of_done level).trans rfl

theorem Scanning.alternatives_none (scanning : Scanning (')' :: rest) parser) :
    ∃ after, firstExpr [unop self, arithmLiteral, arithmVariable] parser = .done none after ∧
      Scanning (')' :: rest) after := by
  have noUnop : unop self parser = .done none parser := scanning.unop_none rfl
  have noLiteral : arithmLiteral parser = .done none parser := by
    rw [arithmLiteral, Run.gets_bind, scanning.buf]
    rfl
  obtain ⟨after, peeked, atRest⟩ := scanning.peekName rfl
  have noVariable : arithmVariable parser = .done none after := by
    rw [arithmVariable, Run.bind_of_done peeked]
    rfl
  refine ⟨after, ?_, atRest⟩
  apply (Run.bind_of_done noUnop).trans
  apply (Run.bind_of_done noLiteral).trans
  exact (Run.bind_of_done noVariable).trans rfl

theorem EmptyPairs.paren_none {pairs : List Lexeme} (empty : EmptyPairs pairs) :
    ∃ enough, ∀ fuel, enough ≤ fuel → ∀ rest, charAt rest 0 ≠ '(' → ∀ parser,
      Scanning (lexemesText pairs ++ rest) parser →
        ∃ after, paren (arithmExpr fuel) parser = .done none after ∧ Scanning rest after := by
  induction empty with
  | nothing => exact ⟨0, fun fuel _ rest different parser scanning => ⟨parser, scanning.paren_none different, scanning⟩⟩
  | @pair gap inside space pairs ih =>
      obtain ⟨enough, reads⟩ := ih
      refine ⟨enough + 2, fun fuel large rest _ parser scanning => ?_⟩
      obtain ⟨fuel, rfl⟩ : ∃ less, fuel = less + 2 := ⟨fuel - 2, by omega⟩
      have split : lexemesText (⟨['('], gap⟩ :: (inside ++ [⟨[')'], []⟩])) ++ rest =
          '(' :: (gap ++ (lexemesText inside ++ ')' :: rest)) := by simp
      have first : charAt (lexemesText inside ++ ')' :: rest) 0 = '(' ∨
          charAt (lexemesText inside ++ ')' :: rest) 0 = ')' := by
        cases pairs with
        | nothing => exact .inr rfl
        | pair => exact .inl rfl
      rw [split] at scanning
      obtain ⟨atGap, opened, scanningGap⟩ := scanning.parseChar (by decide)
      obtain ⟨atInside, skipped, scanningInside⟩ := scanningGap.consumeWhitespace space (by
        rcases first with first | first <;> rw [first] <;> decide)
      have starts : symbolAt (lexemesText inside ++ ')' :: rest) = some .token := by
        cases pairs with
        | nothing => rfl
        | pair => rfl
      have noName : nameLength false true (lexemesText inside ++ ')' :: rest) = 0 := by
        cases pairs with
        | nothing => rfl
        | pair => rfl
      obtain ⟨named, peeked, scanningNamed⟩ := scanningInside.peekName starts
      have noAssignment : assignment (arithmExpr (fuel + 1)) atInside = .done none named := by
        rw [assignment, Run.bind_of_done peeked, noName]
        rfl
      obtain ⟨atClose, unparenthesised, scanningClose⟩ := reads (fuel + 1) (by omega) (')' :: rest)
        (by simp [charAt]) named scanningNamed
      obtain ⟨failed, alternatives, scanningFailed⟩ :=
        @Scanning.alternatives_none _ _ (arithmExpr (fuel + 1)) scanningClose
      have noTerm : arithmTerm (arithmExpr (fuel + 1)) named = .done none failed := by
        rw [arithmTerm_of_paren_none unparenthesised, alternatives]
      have noExpr : arithmExpr (fuel + 2) atInside = .done none failed := by
        rw [arithmExpr, Run.bind_of_done noAssignment]
        exact ternary_none fuel noTerm (by omega)
      obtain ⟨after, closed, atRest⟩ := scanningFailed.parseChar (by decide)
      have closedTwice : expectChar ')' failed = .done true after := by
        rw [expectChar, Run.bind_of_done closed]
        rfl
      refine ⟨after, ?_, atRest⟩
      rw [paren, Run.bind_of_done opened, if_pos rfl]
      apply (Run.bind_of_done skipped).trans
      apply (Run.bind_of_done noExpr).trans
      exact (Run.bind_of_done closedTwice).trans rfl

end

/-! ## What follows a part -/

/-- The end of the text, or a character that closes what the expression is in. -/
def Closes (rest : Str) : Prop := rest = [] ∨ ∃ more, rest = ')' :: more ∨ rest = ':' :: more

theorem Closes.stops (closes : Closes rest) : StopsAll rest := by
  rcases closes with rfl | ⟨more, rfl | rfl⟩
  · exact EndsExpr.stops (.inl rfl)
  · exact ⟨stops_of_char (.inl rfl) more, (by decide : ')' ≠ '?')⟩
  · exact ⟨stops_of_char (.inr (.inr rfl)) more, (by decide : ':' ≠ '?')⟩

theorem Closes.noName (closes : Closes rest) : nameLength false false rest = 0 := by
  rcases closes with rfl | ⟨more, rfl | rfl⟩ <;> rfl

/-- The text after a part of an expression. -/
structure Follows (level : Nat) (isOpen : Bool) (rest : Str) : Prop where
  stops : Stops level rest
  noName : nameLength false false rest = 0
  closes : isOpen = true → Closes rest

theorem Closes.follows (closes : Closes rest) (isOpen : Bool) : Follows 10 isOpen rest :=
  ⟨closes.stops.1, closes.noName, fun _ => closes⟩

theorem Follows.le {level lower : Nat} {isOpen : Bool} (follows : Follows level isOpen rest) (bounded : lower ≤ level) :
    Follows lower isOpen rest :=
  ⟨follows.stops.le bounded, follows.noName, follows.closes⟩

theorem plain_noName {c : Char} {more : Str} (other : (c == '_' || c.isAlphanum) = false) (first : Bool) :
    nameLength false first (c :: more) = 0 := by
  rw [Bool.or_eq_false_iff] at other
  have different : c ≠ '_' := by simpa using other.1
  simp [nameLength, different, other.2]

theorem StartsOperand.first {lexemes : List Lexeme} (starts : StartsOperand lexemes) (rest : Str) :
    ∃ c more, lexemesText lexemes ++ rest = c :: more ∧ operandChar c = true := by
  obtain ⟨c, str, gap, more, rfl, operand, -⟩ := starts
  exact ⟨c, str ++ gap ++ lexemesText more ++ rest, by simp, operand⟩

theorem operandChar_visible {c : Char} (operand : operandChar c = true) : isSpace c = false := by
  cases space : isSpace c with
  | false => rfl
  | true =>
      simp only [isSpace, Bool.or_eq_true, beq_iff_eq] at space
      rcases space with ((((rfl | rfl) | rfl) | rfl) | rfl) | rfl <;> (revert operand; decide)

theorem gap_first {gap : Str} (space : IsGap gap) {c : Char} (more : Str) (operand : operandChar c = true) :
    ∃ d others, gap ++ c :: more = d :: others ∧ PlainChar d := by
  cases gap with
  | nil => exact ⟨c, more, rfl, operandChar_plain operand⟩
  | cons d gap => exact ⟨d, gap ++ c :: more, rfl, space_plain (space d List.mem_cons_self)⟩

theorem op_noName {level : Nat} {op : OpToken} (member : op ∈ levelOps level) (more : Str) (first : Bool) :
    nameLength false first (op.str ++ more) = 0 := by
  match level with
  | 0 => simp [levelOps] at member
  | 1 | 2 | 3 | 4 | 5 | 6 | 7 | 8 | 9 | 10 =>
      simp only [levelOps, List.mem_cons, List.not_mem_nil, or_false] at member
      rcases member with rfl | rfl | rfl | rfl | rfl <;> exact plain_noName rfl first
  | _ + 11 => simp [levelOps] at member

theorem op_follows {level : Nat} {op : OpToken} {gap : Str} {lexemes : List Lexeme} (bounded : level < 10)
    (member : op ∈ levelOps (level + 1)) (space : IsGap gap) (starts : StartsOperand lexemes) (rest : Str) :
    levelOpAt (level + 1) (op.str ++ (gap ++ (lexemesText lexemes ++ rest))) = some op ∧
      Follows level false (op.str ++ (gap ++ (lexemesText lexemes ++ rest))) ∧
      isSpace (charAt (op.str ++ (gap ++ (lexemesText lexemes ++ rest))) 0) = false := by
  obtain ⟨c, more, text, operand⟩ := starts.first rest
  obtain ⟨d, others, gapText, plain⟩ := gap_first space more operand
  obtain ⟨found, stops, visible⟩ := op_level bounded member plain others
  rw [text, gapText]
  exact ⟨found, ⟨stops, op_noName member _ false, fun isOpen => Bool.noConfusion isOpen⟩, visible⟩

theorem question_follows (more : Str) : Follows 10 false ('?' :: more) :=
  ⟨stops_of_char (.inr (.inl rfl)) more, rfl, fun isOpen => Bool.noConfusion isOpen⟩

/-! ## The parts are read -/

/-- The function of the level, with a bound on its own operators. -/
def levelCount (bound : Nat) (self : Parse (Option ArithmExpr)) (count : Nat) : Nat → Parse (Option ArithmExpr)
  | level + 3 =>
      rightAssociative (levelParse bound self (level + 2)) (parsers (levelOps (level + 3)))
        (levelSkip (level + 3)) count
  | level => levelParse bound self level

theorem levelCount_bound (bound : Nat) (self : Parse (Option ArithmExpr)) (level : Nat) :
    levelCount bound self bound level = levelParse bound self level := by
  match level with
  | 0 | 1 | 2 => rfl
  | level + 3 => rfl

/-- What a level that is read from the left does after its first operand. -/
def levelLoop (bound : Nat) (self : Parse (Option ArithmExpr)) : Nat → Nat → ArithmExpr → Parse (Option ArithmExpr)
  | 0 => factorLoop self
  | _ => addendLoop bound self

/-- The part is read, with enough fuel. A term leaves the whitespace after it. -/
def IsRead (isOpen : Bool) (lexemes : List Lexeme) (expr : ArithmExpr) : ExprPart → Prop
  | .level 0 => ∃ enough, ∀ fuel, enough ≤ fuel → ∀ rest, Follows 0 isOpen rest → ∀ parser,
      Scanning (lexemesText lexemes ++ rest) parser →
        ∃ gap after, arithmTerm (arithmExpr fuel) parser = .done (some expr) after ∧ IsGap gap ∧
          Scanning (gap ++ rest) after
  | .level (level + 1) => ∃ enough, ∀ fuel, enough ≤ fuel → ∀ count, enough ≤ count → ∀ rest,
      Follows (level + 1) isOpen rest →
        Reads (levelCount fuel (arithmExpr fuel) count (level + 1)) (lexemesText lexemes) rest expr
  | .more level left => level < 2 → ∃ enough, ∀ fuel, enough ≤ fuel → ∀ count, enough ≤ count → ∀ gap rest,
      IsGap gap → (level = 1 → gap = []) → Follows (level + 1) isOpen rest → ∀ parser,
        Scanning (gap ++ (lexemesText lexemes ++ rest)) parser →
          ∃ after, levelLoop fuel (arithmExpr fuel) level count left parser = .done (some expr) after ∧
            Scanning rest after
  | .conditional => ∃ enough, ∀ fuel, enough ≤ fuel → ∀ count, enough ≤ count → ∀ rest, Closes rest →
      Reads (ternary fuel (arithmExpr fuel) count) (lexemesText lexemes) rest expr
  | .whole => ∃ enough, ∀ fuel, enough ≤ fuel → ∀ rest, Closes rest →
      Reads (arithmExpr fuel) (lexemesText lexemes) rest expr

section

variable {isOpen restOpen clean : Bool} {pairs lexemes others : List Lexeme} {gap : Str}
  {expr left right : ArithmExpr} {level : Nat} {op : OpToken} {part : ExprPart}

theorem gap_noName (space : IsGap gap) (ends : nameLength false false rest = 0) :
    nameLength false false (gap ++ rest) = 0 := by
  cases gap with
  | nil => exact ends
  | cons c gap =>
      have first : isSpace c = true := space c List.mem_cons_self
      apply plain_noName
      cases nameChar : (c == '_' || c.isAlphanum) with
      | false => rfl
      | true =>
          rw [(nameChar_token nameChar []).2.1] at first
          cases first

theorem EmptyPairs.term_read (empty : EmptyPairs pairs) (text : Str) (space : IsGap gap)
    (start : ∀ more, charAt (text ++ more) 0 ≠ '(')
    (alternatives : ∃ enough, ∀ fuel, enough ≤ fuel → ∀ rest, Follows 0 isOpen rest → ∀ parser,
      Scanning (text ++ (gap ++ rest)) parser →
        ∃ after, firstExpr [unop (arithmExpr fuel), arithmLiteral, arithmVariable] parser = .done (some expr) after ∧
          Scanning (gap ++ rest) after)
    (split : ∀ rest, lexemesText lexemes ++ rest = lexemesText pairs ++ (text ++ (gap ++ rest))) :
    IsRead isOpen lexemes expr (.level 0) := by
  obtain ⟨enough, skips⟩ := empty.paren_none
  obtain ⟨more, reads⟩ := alternatives
  refine ⟨enough + more, fun fuel large rest follows parser scanning => ?_⟩
  rw [split] at scanning
  obtain ⟨middle, unparenthesised, scanningMiddle⟩ := skips fuel (by omega) _ (start (gap ++ rest)) parser scanning
  obtain ⟨after, read, atRest⟩ := reads fuel (by omega) rest follows middle scanningMiddle
  exact ⟨gap, after, by rw [arithmTerm_of_paren_none unparenthesised, read], space, atRest⟩

theorem literal_isRead {digits : Str} {value : Int} (empty : EmptyPairs pairs) (nonempty : digits ≠ [])
    (digit : ∀ c ∈ digits, c.isDigit = true) (scanned : strtol 0 digits = ⟨value, [], false⟩) (space : IsGap gap) :
    IsRead isOpen (pairs ++ [⟨digits, gap⟩]) (.literal value) (.level 0) := by
  refine empty.term_read digits space ?_ ⟨0, fun fuel _ rest follows parser scanning => ?_⟩ (by simp)
  · intro more
    obtain ⟨c, str, rfl⟩ := List.exists_cons_of_ne_nil nonempty
    exact (digit_start (digit c List.mem_cons_self) more).2.2.2
  · exact digits_alternative nonempty digit scanned (gap_noName space follows.noName) scanning

theorem var_isRead {name : Str} (empty : EmptyPairs pairs) (isName : ArithmExpr.IsWritable.IsName name)
    (space : IsGap gap) : IsRead isOpen (pairs ++ [⟨name, gap⟩]) (.var name) (.level 0) := by
  refine empty.term_read name space ?_ ⟨0, fun fuel _ rest follows parser scanning => ?_⟩ (by simp)
  · intro more
    obtain ⟨c, str, rfl⟩ := List.exists_cons_of_ne_nil isName.1
    exact (nameChar_token (nameLength_chars true _ isName.2 c List.mem_cons_self) more).2.2.2
  · exact name_alternative (nameText isName (gap_noName space follows.noName)) scanning

theorem unop_isRead {type : ArithmUnopType} (empty : EmptyPairs pairs) (read : IsRead isOpen lexemes expr .whole) :
    IsRead true (pairs ++ ⟨[unopChar type], []⟩ :: lexemes) (.unop type expr) (.level 0) := by
  obtain ⟨enough, reads⟩ := read
  refine empty.term_read (unopChar type :: lexemesText lexemes) isGap_nil ?_
    ⟨enough, fun fuel large rest follows parser scanning => ?_⟩ (by simp)
  · intro more
    rw [List.cons_append, show charAt (unopChar type :: (lexemesText lexemes ++ more)) 0 = unopChar type from rfl]
    cases type <;> decide
  · exact unop_alternative (reads fuel large rest (follows.closes rfl)) scanning

theorem paren_isRead {gapAfter : Str} (space : IsGap gap) (spaceAfter : IsGap gapAfter)
    (starts : StartsOperand lexemes) (read : IsRead isOpen lexemes expr .whole) :
    IsRead restOpen (⟨['('], gap⟩ :: (lexemes ++ [⟨[')'], gapAfter⟩])) expr (.level 0) := by
  obtain ⟨enough, reads⟩ := read
  refine ⟨enough, fun fuel large rest follows parser scanning => ?_⟩
  have split : lexemesText (⟨['('], gap⟩ :: (lexemes ++ [⟨[')'], gapAfter⟩])) ++ rest =
      '(' :: (gap ++ (lexemesText lexemes ++ ')' :: (gapAfter ++ rest))) := by simp
  rw [split] at scanning
  obtain ⟨c, more, first, operand⟩ := starts.first (')' :: (gapAfter ++ rest))
  obtain ⟨atGap, opened, scanningGap⟩ := scanning.parseChar (by decide)
  obtain ⟨atInside, skipped, scanningInside⟩ := scanningGap.consumeWhitespace space (by
    rw [first]
    exact operandChar_visible operand)
  obtain ⟨atClose, readInside, scanningClose⟩ :=
    reads fuel large (')' :: (gapAfter ++ rest)) (.inr ⟨_, .inl rfl⟩) atInside scanningInside
  obtain ⟨after, closed, atRest⟩ := scanningClose.parseChar (by decide)
  have closedTwice : expectChar ')' atClose = .done true after := by
    rw [expectChar, Run.bind_of_done closed]
    rfl
  have parenthesised : paren (arithmExpr fuel) parser = .done (some expr) after := by
    rw [paren, Run.bind_of_done opened, if_pos rfl]
    apply (Run.bind_of_done skipped).trans
    apply (Run.bind_of_done readInside).trans
    exact (Run.bind_of_done closedTwice).trans rfl
  exact ⟨gapAfter, after, (Run.bind_of_done parenthesised).trans rfl, spaceAfter, atRest⟩

theorem Phrase.more_start {left : ArithmExpr} (continues : Phrase clean (.more level left) restOpen others expr)
    (bounded : level < 10) (closed : isOpen = true → others = [])
    (follows : Follows (level + 1) (isOpen || restOpen) rest) : Follows level isOpen (lexemesText others ++ rest) := by
  cases continues with
  | done =>
      refine ⟨follows.stops.le (by omega), follows.noName, fun ends => follows.closes ?_⟩
      rw [ends, Bool.true_or]
  | @more _ _ _ _ _ _ othersAfter _ _ _ member space operand continues' closed' =>
      have notOpen : isOpen = false := by
        cases isOpen with
        | false => rfl
        | true => cases closed rfl
      have starts := (operand.starts (by simp)).append othersAfter
      have ends := (op_follows bounded member space starts rest).2.1
      rw [notOpen]
      simpa using ends

theorem consumeGap (space : IsGap gap) (starts : StartsOperand lexemes)
    (scanning : Scanning (gap ++ (lexemesText lexemes ++ rest)) parser) :
    ∃ after, consumeWhitespace parser = .done () after ∧ Scanning (lexemesText lexemes ++ rest) after := by
  obtain ⟨c, more, first, operand⟩ := starts.first rest
  apply scanning.consumeWhitespace space
  rw [first]
  exact operandChar_visible operand

/-- The operator before an operand is read, with the whitespace around it. -/
theorem chooseOp_gap (bounded : level < 10) (member : op ∈ levelOps (level + 1)) (space : IsGap gap)
    (starts : StartsOperand lexemes) (scanning : Scanning (op.str ++ (gap ++ (lexemesText lexemes ++ rest))) parser) :
    ∃ after, chooseOp (parsers (levelOps (level + 1))) parser = .done (some op.type) after ∧
      Scanning (gap ++ (lexemesText lexemes ++ rest)) after :=
  chooseOp_between scanning (op_follows bounded member space starts rest).1

theorem done_isRead (left : ArithmExpr) : IsRead false [] left (.more level left) := by
  intro low
  refine ⟨1, fun fuel _ count large gap rest space noGap follows parser scanning => ?_⟩
  obtain ⟨count, rfl⟩ : ∃ less, count = less + 1 := ⟨count - 1, by omega⟩
  match level with
  | 0 =>
      obtain ⟨after, skipped, atRest⟩ := scanning.consumeWhitespace space (follows.stops.visible (by omega))
      refine ⟨after, ?_, atRest⟩
      change factorLoop (arithmExpr fuel) (count + 1) left parser = _
      rw [factorLoop, Run.bind_of_done skipped]
      have absent : levelOpAt 1 after.buf = none := by
        rw [atRest.buf]
        exact follows.stops.noOperator 1 (by omega) (by omega)
      exact (Run.bind_of_done (levelOps_none absent)).trans rfl
  | 1 =>
      obtain rfl := noGap rfl
      exact ⟨parser, addendLoop_reads count scanning follows.stops, scanning⟩

theorem Follows.behind {rest : Str} (follows : Follows (level + 1) (isOpen || restOpen) rest) :
    Follows (level + 1) restOpen rest := by
  refine ⟨follows.stops, follows.noName, fun ends => follows.closes ?_⟩
  rw [ends, Bool.or_true]

theorem more_isRead (member : op ∈ levelOps (level + 1)) (space : IsGap gap)
    (operand : Phrase clean (.level level) isOpen lexemes right)
    (continues : Phrase clean (.more level (.binop op.type left right)) restOpen others expr)
    (closed : isOpen = true → others = []) (read : IsRead isOpen lexemes right (.level level))
    (readOthers : IsRead restOpen others expr (.more level (.binop op.type left right))) :
    IsRead (isOpen || restOpen) (⟨op.str, gap⟩ :: (lexemes ++ others)) expr (.more level left) := by
  intro low
  obtain ⟨othersEnough, othersRead⟩ := readOthers low
  have starts := operand.starts (by simp)
  have split : ∀ rest, lexemesText (⟨op.str, gap⟩ :: (lexemes ++ others)) ++ rest =
      op.str ++ (gap ++ (lexemesText lexemes ++ (lexemesText others ++ rest))) := by simp
  match level with
  | 0 =>
      obtain ⟨enough, reads⟩ := read
      refine ⟨enough + othersEnough + 1, fun fuel large count largeCount gapBefore rest spaceBefore _ follows parser
        scanning => ?_⟩
      obtain ⟨count, rfl⟩ : ∃ less, count = less + 1 := ⟨count - 1, by omega⟩
      rw [split] at scanning
      have visible := (op_follows (by omega) member space starts (lexemesText others ++ rest)).2.2
      obtain ⟨atOp, skipped, scanningOp⟩ := scanning.consumeWhitespace spaceBefore visible
      obtain ⟨atGap, chosen, scanningGap⟩ := chooseOp_gap (by omega) member space starts scanningOp
      obtain ⟨atOperand, skippedAgain, scanningOperand⟩ := consumeGap space starts scanningGap
      obtain ⟨gapAfter, behind, readOperand, spaceAfter, scanningOthers⟩ := reads fuel (by omega)
        (lexemesText others ++ rest) (continues.more_start (by omega) closed follows) atOperand scanningOperand
      obtain ⟨after, readRest, atRest⟩ := othersRead fuel (by omega) count (by omega) gapAfter rest spaceAfter
        (by omega) follows.behind behind scanningOthers
      refine ⟨after, ?_, atRest⟩
      change factorLoop (arithmExpr fuel) (count + 1) left parser = _
      rw [factorLoop, Run.bind_of_done skipped]
      apply (Run.bind_of_done chosen).trans
      apply (Run.bind_of_done skippedAgain).trans
      exact (Run.bind_of_done readOperand).trans readRest
  | 1 =>
      obtain ⟨enough, reads⟩ := read
      refine ⟨enough + othersEnough + 1, fun fuel large count largeCount gapBefore rest _ noGap follows parser
        scanning => ?_⟩
      obtain rfl := noGap rfl
      obtain ⟨count, rfl⟩ : ∃ less, count = less + 1 := ⟨count - 1, by omega⟩
      rw [List.nil_append, split] at scanning
      obtain ⟨atGap, chosen, scanningGap⟩ := chooseOp_gap (by omega) member space starts scanning
      obtain ⟨atOperand, skipped, scanningOperand⟩ := consumeGap space starts scanningGap
      obtain ⟨behind, readOperand, scanningOthers⟩ := reads fuel (by omega) fuel (by omega)
        (lexemesText others ++ rest) (continues.more_start (by omega) closed follows) atOperand scanningOperand
      obtain ⟨after, readRest, atRest⟩ := othersRead fuel (by omega) count (by omega) [] rest isGap_nil
        (fun _ => rfl) follows.behind behind scanningOthers
      refine ⟨after, ?_, atRest⟩
      change addendLoop fuel (arithmExpr fuel) (count + 1) left parser = _
      rw [addendLoop]
      apply (Run.bind_of_done chosen).trans
      apply (Run.bind_of_done skipped).trans
      exact (Run.bind_of_done readOperand).trans readRest

theorem chain_isRead (low : level < 2) (continues : Phrase clean (.more level left) restOpen others expr)
    (closed : isOpen = true → others = []) (read : IsRead isOpen lexemes left (.level level))
    (readOthers : IsRead restOpen others expr (.more level left)) :
    IsRead (isOpen || restOpen) (lexemes ++ others) expr (.level (level + 1)) := by
  obtain ⟨othersEnough, othersRead⟩ := readOthers low
  match level with
  | 0 =>
      obtain ⟨enough, reads⟩ := read
      refine ⟨enough + othersEnough, fun fuel large count largeCount rest follows parser scanning => ?_⟩
      rw [lexemesText_append, List.append_assoc] at scanning
      obtain ⟨gapAfter, behind, readOperand, spaceAfter, scanningOthers⟩ := reads fuel (by omega)
        (lexemesText others ++ rest) (continues.more_start (by omega) closed follows) parser scanning
      obtain ⟨after, readRest, atRest⟩ := othersRead fuel (by omega) fuel (by omega) gapAfter rest spaceAfter
        (by omega) follows.behind behind scanningOthers
      exact ⟨after, (Run.bind_of_done readOperand).trans readRest, atRest⟩
  | 1 =>
      obtain ⟨enough, reads⟩ := read
      refine ⟨enough + othersEnough, fun fuel large count largeCount rest follows parser scanning => ?_⟩
      rw [lexemesText_append, List.append_assoc] at scanning
      obtain ⟨behind, readOperand, scanningOthers⟩ := reads fuel (by omega) fuel (by omega)
        (lexemesText others ++ rest) (continues.more_start (by omega) closed follows) parser scanning
      obtain ⟨after, readRest, atRest⟩ := othersRead fuel (by omega) fuel (by omega) [] rest isGap_nil
        (fun _ => rfl) follows.behind behind scanningOthers
      exact ⟨after, (Run.bind_of_done readOperand).trans readRest, atRest⟩

theorem up_isRead (high : 2 ≤ level) (read : IsRead isOpen lexemes expr (.level level)) :
    IsRead isOpen lexemes expr (.level (level + 1)) := by
  obtain ⟨level, rfl⟩ : ∃ less, level = less + 2 := ⟨level - 2, by omega⟩
  obtain ⟨enough, reads⟩ := read
  refine ⟨enough + 1, fun fuel large count largeCount rest follows => ?_⟩
  obtain ⟨count, rfl⟩ : ∃ less, count = less + 1 := ⟨count - 1, by omega⟩
  have readBelow := reads fuel (by omega) fuel (by omega) rest (follows.le (by omega))
  rw [levelCount_bound] at readBelow
  exact rightAssociative_reads count readBelow (follows.stops.noOperator (level + 3) (by omega) (by omega))

theorem levelSkip_gap (space : IsGap gap) (skipped : level = 5 → gap = []) (starts : StartsOperand lexemes)
    (scanning : Scanning (gap ++ (lexemesText lexemes ++ rest)) parser) :
    ∃ after, levelSkip level parser = .done () after ∧ Scanning (lexemesText lexemes ++ rest) after := by
  unfold levelSkip
  by_cases equal : level = 5
  · obtain rfl := skipped equal
    rw [if_pos equal]
    exact ⟨parser, rfl, scanning⟩
  · rw [if_neg equal]
    exact consumeGap space starts scanning

theorem binop_isRead (high : 2 ≤ level) (bounded : level < 10) (member : op ∈ levelOps (level + 1)) (space : IsGap gap)
    (skipped : level + 1 = 5 → gap = []) (starts : StartsOperand others)
    (read : IsRead false lexemes left (.level level)) (readOthers : IsRead isOpen others right (.level (level + 1))) :
    IsRead isOpen (lexemes ++ ⟨op.str, gap⟩ :: others) (.binop op.type left right) (.level (level + 1)) := by
  obtain ⟨level, rfl⟩ : ∃ less, level = less + 2 := ⟨level - 2, by omega⟩
  obtain ⟨enough, reads⟩ := read
  obtain ⟨othersEnough, othersRead⟩ := readOthers
  refine ⟨enough + othersEnough + 1, fun fuel large count largeCount rest follows parser scanning => ?_⟩
  obtain ⟨count, rfl⟩ : ∃ less, count = less + 1 := ⟨count - 1, by omega⟩
  have split : lexemesText (lexemes ++ ⟨op.str, gap⟩ :: others) ++ rest =
      lexemesText lexemes ++ (op.str ++ (gap ++ (lexemesText others ++ rest))) := by simp
  rw [split] at scanning
  have readBelow := reads fuel (by omega) fuel (by omega) _ (op_follows bounded member space starts rest).2.1
  rw [levelCount_bound] at readBelow
  obtain ⟨atOp, readLeft, scanningOp⟩ := readBelow parser scanning
  obtain ⟨atGap, chosen, scanningGap⟩ := chooseOp_gap bounded member space starts scanningOp
  obtain ⟨atOperand, skip, scanningOperand⟩ := levelSkip_gap space skipped starts scanningGap
  obtain ⟨after, readRight, atRest⟩ := othersRead fuel (by omega) count
    (by omega) rest follows atOperand scanningOperand
  refine ⟨after, ?_, atRest⟩
  change rightAssociative _ _ _ (count + 1) parser = _
  rw [rightAssociative]
  apply (Run.bind_of_done readLeft).trans
  apply (Run.bind_of_done chosen).trans
  apply (Run.bind_of_done skip).trans
  exact (Run.bind_of_done readRight).trans rfl

theorem value_isRead (read : IsRead isOpen lexemes expr (.level 10)) : IsRead isOpen lexemes expr .conditional := by
  obtain ⟨enough, reads⟩ := read
  refine ⟨enough + 1, fun fuel large count largeCount rest closes => ?_⟩
  obtain ⟨count, rfl⟩ : ∃ less, count = less + 1 := ⟨count - 1, by omega⟩
  have readLevel := reads fuel (by omega) fuel (by omega) rest (closes.follows isOpen)
  rw [levelCount_bound] at readLevel
  exact ternary_reads count readLevel closes.stops.2

theorem cond_isRead {bodyLexemes elseLexemes : List Lexeme} {condition body elsePart : ArithmExpr}
    (read : IsRead false lexemes condition (.level 10)) (readBody : IsRead isOpen bodyLexemes body .conditional)
    (readElse : IsRead restOpen elseLexemes elsePart .conditional) :
    IsRead restOpen (lexemes ++ ⟨['?'], []⟩ :: (bodyLexemes ++ ⟨[':'], []⟩ :: elseLexemes))
      (.cond condition body elsePart) .conditional := by
  obtain ⟨enough, reads⟩ := read
  obtain ⟨bodyEnough, bodyReads⟩ := readBody
  obtain ⟨elseEnough, elseReads⟩ := readElse
  refine ⟨enough + bodyEnough + elseEnough + 1, fun fuel large count largeCount rest closes parser scanning => ?_⟩
  obtain ⟨count, rfl⟩ : ∃ less, count = less + 1 := ⟨count - 1, by omega⟩
  have split : lexemesText (lexemes ++ ⟨['?'], []⟩ :: (bodyLexemes ++ ⟨[':'], []⟩ :: elseLexemes)) ++ rest =
      lexemesText lexemes ++ '?' :: (lexemesText bodyLexemes ++ ':' :: (lexemesText elseLexemes ++ rest)) := by simp
  rw [split] at scanning
  have readLevel := reads fuel (by omega) fuel (by omega) _ (question_follows
    (lexemesText bodyLexemes ++ ':' :: (lexemesText elseLexemes ++ rest)))
  rw [levelCount_bound] at readLevel
  obtain ⟨atMark, readCondition, scanningMark⟩ := readLevel parser scanning
  obtain ⟨inBody, question, scanningBody⟩ := scanningMark.parseChar (by decide)
  obtain ⟨atSign, readBody, scanningSign⟩ := bodyReads fuel (by omega) count (by omega)
    (':' :: (lexemesText elseLexemes ++ rest)) (.inr ⟨_, .inr rfl⟩) inBody scanningBody
  obtain ⟨inElse, colon, scanningElse⟩ := scanningSign.parseChar (by decide)
  obtain ⟨after, readElse, atRest⟩ := elseReads fuel (by omega) count (by omega) rest closes inElse scanningElse
  have colonTwice : expectChar ':' atSign = .done true inElse := by
    rw [expectChar, Run.bind_of_done colon]
    rfl
  refine ⟨after, ?_, atRest⟩
  rw [ternary, ← levelParse_logicalOr]
  apply (Run.bind_of_done readCondition).trans
  apply (Run.bind_of_done question).trans
  apply (Run.bind_of_done readBody).trans
  apply (Run.bind_of_done colonTwice).trans
  exact (Run.bind_of_done readElse).trans rfl

theorem operandChar_token {c : Char} (operand : operandChar c = true) (more : Str) :
    symbolAt (c :: more) = some .token := by
  have different : ∀ d : Char, operandChar d = false → c ≠ d := by
    rintro d other rfl
    rw [other] at operand
    cases operand
  have first : charAt (c :: more) 0 = c := rfl
  simp [symbolAt, first, isOperatorStart, isBlank, different '\x00' rfl, different '\n' rfl, different '&' rfl,
    different '|' rfl, different ';' rfl, different '<' rfl, different '>' rfl, different ' ' rfl,
    different '\t' rfl, different '#' rfl]

def assignOpAt (text : Str) : Option (Str × ArithmAssignOp) := assignOps.find? fun op => op.1.isPrefixOf text

theorem assignOpAt_none {c : Char} {more : Str} (other : c ∉ ['=', '*', '/', '%', '+', '-', '<', '>', '&', '^', '|']) :
    assignOpAt (c :: more) = none := by
  simp only [List.mem_cons, List.not_mem_nil, or_false, not_or] at other
  rw [assignOpAt, List.find?_eq_none]
  intro op member
  have start : ∃ d str, op.1 = d :: str ∧ c ≠ d := by
    simp only [assignOps, List.mem_cons, List.not_mem_nil, or_false] at member
    rcases member with rfl | rfl | rfl | rfl | rfl | rfl | rfl | rfl | rfl | rfl | rfl <;>
      exact ⟨_, _, rfl, by simp [other]⟩
  obtain ⟨d, str, text, different⟩ := start
  rw [text, isPrefixOf_cons_ne different]
  simp

theorem op_unassigned (member : op ∈ levelOps level) (different : op.str ≠ ['=', '=']) {c : Char} (plain : PlainChar c)
    (more : Str) : assignOpAt (op.str ++ c :: more) = none := by
  have notEquals := Ne.symm plain.notEquals
  have notLess := Ne.symm plain.notLess
  have notGreat := Ne.symm plain.notGreat
  match level with
  | 0 => simp [levelOps] at member
  | 1 | 2 | 3 | 4 | 5 | 6 | 7 | 8 | 9 | 10 =>
      simp only [levelOps, List.mem_cons, List.not_mem_nil, or_false] at member
      rcases member with rfl | rfl | rfl | rfl | rfl <;>
        first
        | exact absurd rfl different
        | simp [assignOpAt, assignOps, List.isPrefixOf, notEquals, notLess, notGreat]
  | _ + 11 => simp [levelOps] at member

theorem space_unassigned {c : Char} (space : isSpace c = true) (more : Str) : assignOpAt (c :: more) = none := by
  apply assignOpAt_none
  intro member
  simp only [List.mem_cons, List.not_mem_nil, or_false] at member
  rcases member with rfl | rfl | rfl | rfl | rfl | rfl | rfl | rfl | rfl | rfl | rfl <;> (revert space; decide)

theorem Closes.unassigned (closes : Closes rest) : assignOpAt rest = none := by
  rcases closes with rfl | ⟨more, rfl | rfl⟩ <;> rfl

theorem nameLength_start {c : Char} (noName : nameLength false true [c] = 0) (more : Str) :
    nameLength false true (c :: more) = 0 := by
  rw [nameLength] at noName ⊢
  split
  · rfl
  · split
    · rfl
    · simp_all

/-- After a name, neither the name goes on nor does an assignment operator follow. -/
theorem after_name {name : Str} (isName : ArithmExpr.IsWritable.IsName name)
    (followed : FollowsOperand others) (uncompared : ¬ ComparedName (⟨name, gap⟩ :: others)) (space : IsGap gap)
    (closes : Closes rest) :
    nameLength false false (gap ++ (lexemesText others ++ rest)) = 0 ∧
      assignOpAt (gap ++ (lexemesText others ++ rest)) = none := by
  have noName : nameLength false false (lexemesText others ++ rest) = 0 := by
    rcases followed with rfl | ⟨str, gapAfter, more, rfl, spaceAfter, starts, rfl | ⟨level, op, member, rfl⟩⟩
    · exact closes.noName
    · rfl
    · rw [lexemesText_cons, List.append_assoc, List.append_assoc]
      exact op_noName member _ false
  refine ⟨gap_noName space noName, ?_⟩
  cases gap with
  | cons c gap => exact space_unassigned (space c List.mem_cons_self) _
  | nil =>
      rcases followed with rfl | ⟨str, gapAfter, more, rfl, spaceAfter, starts, rfl | ⟨level, op, member, rfl⟩⟩
      · exact closes.unassigned
      · exact assignOpAt_none (by decide)
      · have different : op.str ≠ ['=', '='] := by
          intro same
          exact uncompared ⟨name, gapAfter, more, isName, by rw [same]⟩
        obtain ⟨c, behind, first, operand⟩ := starts.first rest
        obtain ⟨d, behindGap, gapText, plain⟩ := gap_first spaceAfter behind operand
        rw [List.nil_append, lexemesText_cons, List.append_assoc, List.append_assoc, first, gapText]
        exact op_unassigned member different plain behindGap

theorem Phrase.unassigned (inside : Phrase clean .conditional isOpen lexemes expr) (uncompared : ¬ ComparedName lexemes)
    (closes : Closes rest) :
    nameLength false true (lexemesText lexemes ++ rest) = 0 ∨
      assignOpAt ((lexemesText lexemes ++ rest).drop (nameLength false true (lexemesText lexemes ++ rest))) = none := by
  have followed := inside.nameFollowed (.inr rfl)
  have gapped := inside.gapped
  obtain ⟨c, str, gap, more, rfl, operand, start⟩ := inside.starts (by simp)
  have split : lexemesText (⟨c :: str, gap⟩ :: more) ++ rest =
      c :: str ++ (gap ++ (lexemesText more ++ rest)) := by simp
  rw [split]
  rcases start with noName | isName
  · exact .inl (nameLength_start noName _)
  · obtain ⟨ends, unassigned⟩ := after_name isName (followed _ gap more isName rfl) uncompared
      (gapped_cons.mp gapped).1 closes
    rw [nameLength_name true _ isName.2 ends (.inl isName.1), List.drop_left]
    exact .inr unassigned

theorem whole_isRead (inside : Phrase clean .conditional isOpen lexemes expr) (uncompared : ¬ ComparedName lexemes)
    (read : IsRead isOpen lexemes expr .conditional) : IsRead true lexemes expr .whole := by
  obtain ⟨enough, reads⟩ := read
  refine ⟨enough + 1, fun fuel large rest closes => ?_⟩
  obtain ⟨fuel, rfl⟩ : ∃ less, fuel = less + 1 := ⟨fuel - 1, by omega⟩
  have readInside := reads fuel (by omega) fuel (by omega) rest closes
  obtain ⟨c, more, first, operand⟩ := (inside.starts (by simp)).first rest
  have starts : symbolAt (lexemesText lexemes ++ rest) = some .token := by
    rw [first]
    exact operandChar_token operand more
  exact arithmExpr_reads readInside starts (inside.unassigned uncompared closes)

theorem assign_isRead {name : Str} {op : ArithmAssignOp} (isName : ArithmExpr.IsWritable.IsName name)
    (starts : StartsOperand lexemes) (read : IsRead isOpen lexemes expr .whole) :
    IsRead true (⟨name, []⟩ :: ⟨assignStr op, []⟩ :: lexemes) (.assign op name expr) .whole := by
  obtain ⟨enough, reads⟩ := read
  refine ⟨enough + 1, fun fuel large rest closes => ?_⟩
  obtain ⟨fuel, rfl⟩ : ∃ less, fuel = less + 1 := ⟨fuel - 1, by omega⟩
  have split : lexemesText (⟨name, []⟩ :: ⟨assignStr op, []⟩ :: lexemes) =
      name ++ (assignStr op ++ lexemesText lexemes) := by simp
  rw [split]
  have opEnds : nameLength false false (assignStr op ++ (lexemesText lexemes ++ rest)) = 0 := by
    cases op <;> rfl
  obtain ⟨c, more, first, operand⟩ := starts.first rest
  have operator : assignOps.find? (fun other => other.1.isPrefixOf (assignStr op ++ (lexemesText lexemes ++ rest))) =
      some (assignStr op, op) := by
    cases op <;> rfl
  exact assign_reads (nameText isName opEnds) operator (reads fuel (by omega) rest closes)

theorem Phrase.isRead (phrase : Phrase clean part isOpen lexemes expr) : IsRead isOpen lexemes expr part := by
  induction phrase with
  | literal empty isClean nonempty digit scanned space => exact literal_isRead empty nonempty digit scanned space
  | var empty isClean isName space => exact var_isRead empty isName space
  | unop type empty isClean operand ih => exact unop_isRead empty ih
  | paren space spaceAfter inside ih => exact paren_isRead space spaceAfter (inside.starts (by simp)) ih
  | chain low operand continues closed ih restIh => exact chain_isRead low continues closed ih restIh
  | done left => exact done_isRead left
  | more member space operand continues closed ih restIh =>
      exact more_isRead member space operand continues closed ih restIh
  | up high bounded operand ih => exact up_isRead high ih
  | binop high bounded member space skipped operand operands ih othersIh =>
      exact binop_isRead high bounded member space skipped (operands.starts (by simp)) ih othersIh
  | value operand ih => exact value_isRead ih
  | cond operand chosen otherwise ih chosenIh otherwiseIh => exact cond_isRead ih chosenIh otherwiseIh
  | whole inside uncompared ih => exact whole_isRead inside uncompared ih
  | assign op isName assigned ih => exact assign_isRead isName (assigned.starts (by simp)) ih

end

/-- The text is parsed to the expression, with enough fuel, and without an error. -/
def IsParsed (text : Str) (expr : ArithmExpr) : Prop :=
  ∃ enough, ∀ fuel, enough ≤ fuel → ∃ after,
    mrshParseArithmExpr fuel (mrshParserWithData text) = .done (some expr) after ∧ after.error = none

theorem IsExpression.isParsed {clean : Bool} {text : Str} {expr : ArithmExpr}
    (expression : IsExpression clean text expr) : IsParsed text expr := by
  obtain ⟨gap, isOpen, lexemes, space, phrase, rfl⟩ := expression
  obtain ⟨enough, reads⟩ : IsRead isOpen lexemes expr .whole := phrase.isRead
  refine ⟨enough, fun fuel large => ?_⟩
  have scanning : Scanning (gap ++ (lexemesText lexemes ++ [])) (mrshParserWithData (gap ++ lexemesText lexemes)) := by
    refine ⟨by simp [mrshParserWithData], fun pending => ?_, rfl⟩
    cases pending
  obtain ⟨start, skipped, scanningStart⟩ := consumeGap space (phrase.starts (by simp)) scanning
  obtain ⟨after, read, atEnd⟩ := reads fuel large [] (.inl rfl) start scanningStart
  refine ⟨after, ?_, atEnd.noError⟩
  have next : parserPeekChar after = .done '\x00' after := by
    simp [parserPeekChar, parserPeekAt, atEnd.buf, charAt]
  rw [mrshParseArithmExpr, Run.bind_of_done skipped]
  apply (Run.bind_of_done read).trans
  exact (Run.bind_of_done next).trans rfl

end Mrsh
