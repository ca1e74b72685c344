import Mrsh.Parser.Arithm
import Mrsh.Parser.Symbols

namespace Mrsh

open Mrsh.Data

/-! # The levels of the arithmetic grammar

The functions for binary operators are levels above each other: a level reads
operands of the level below, and operators between them. Which operator a level
reads next depends on the text only. When a level has ended, no level up to it
has an operator left to read.
-/

/-- An operator. One that is guarded is not read before `|` or `&`. -/
structure OpToken where
  str : Str
  guarded : Bool
  type : ArithmBinopType
deriving Repr, DecidableEq

namespace OpToken

def parse (op : OpToken) : Parse Bool :=
  if op.guarded then parseBinop op.str
  else
    match op.str with
    | [c] => parseChar c
    | str => parseStr str

def isAt (op : OpToken) (text : Str) : Bool :=
  op.str.isPrefixOf text &&
    (!op.guarded || (charAt text op.str.length != '|' && charAt text op.str.length != '&'))

end OpToken

/-- The operators of each level, where the level 0 is that of terms. -/
def levelOps : Nat → List OpToken
  | 1 => [⟨['*'], false, .asterisk⟩, ⟨['/'], false, .slash⟩, ⟨['%'], false, .percent⟩]
  | 2 => [⟨['+'], false, .plus⟩, ⟨['-'], false, .minus⟩]
  | 3 => [⟨['<', '<'], false, .dless⟩, ⟨['>', '>'], false, .dgreat⟩]
  | 4 => [⟨['<', '='], false, .lesseq⟩, ⟨['<'], false, .less⟩, ⟨['>', '='], false, .greateq⟩,
      ⟨['>'], false, .great⟩]
  | 5 => [⟨['=', '='], false, .deq⟩, ⟨['!', '='], false, .bangeq⟩]
  | 6 => [⟨['&'], true, .and⟩]
  | 7 => [⟨['^'], true, .circ⟩]
  | 8 => [⟨['|'], true, .or⟩]
  | 9 => [⟨['&', '&'], true, .dand⟩]
  | 10 => [⟨['|', '|'], true, .dor⟩]
  | _ => []

/-- The operator of the level that the text starts with. -/
def levelOpAt (level : Nat) (text : Str) : Option OpToken := (levelOps level).find? (·.isAt text)

/-- What is skipped after an operator of the level. -/
def levelSkip (level : Nat) : Parse Unit := if level = 5 then pure () else consumeWhitespace

def parsers (ops : List OpToken) : List (Parse Bool × ArithmBinopType) := ops.map fun op => (op.parse, op.type)

section

variable (bound : Nat) (self : Parse (Option ArithmExpr))

/-- The function of the level. -/
def levelParse : Nat → Parse (Option ArithmExpr)
  | 0 => arithmTerm self
  | 1 => factor bound self
  | 2 => addend bound self
  | level + 3 =>
      rightAssociative (levelParse (level + 2)) (parsers (levelOps (level + 3))) (levelSkip (level + 3)) bound

theorem levelParse_logicalOr : levelParse bound self 10 = logicalOr bound self := rfl

end

/-! ## Reading an operator -/

variable {parser after : Parser}

theorem levelOps_visible (level : Nat) : ∀ op ∈ levelOps level, '\x00' ∉ op.str := by
  intro op member
  match level with
  | 0 => simp [levelOps] at member
  | 1 | 2 | 3 | 4 | 5 | 6 | 7 | 8 | 9 | 10 =>
      simp only [levelOps, List.mem_cons, List.not_mem_nil, or_false] at member
      rcases member with rfl | rfl | rfl | rfl | rfl <;> decide
  | _ + 11 => simp [levelOps] at member

theorem parserRead_prefix {str : Str} (visible : '\x00' ∉ str) (starts : str.isPrefixOf parser.buf = true) :
    ∃ rest pos line, parser.buf = str ++ rest ∧
      parserRead str.length parser = .done str (parser.moved rest pos line) := by
  obtain ⟨rest, buf⟩ := List.isPrefixOf_iff_prefix.mp starts
  obtain ⟨pos, line, read⟩ := parserRead_append parser str (List.forall_mem_ne'.mpr visible) buf.symm
  exact ⟨rest, pos, line, buf.symm, read⟩

theorem parseChar_eq_parseStr {c : Char} (visible : c ≠ '\x00') : parseChar c = parseStr [c] := by
  funext parser
  cases buf : parser.buf with
  | nil => simp [parseChar, parseStr, parserPeekChar, parserPeekAt, charAt, buf, visible.symm]
  | cons d rest =>
      by_cases same : d = c
      · subst same
        simp [parseChar, parseStr, parserPeekChar, parserPeekAt, charAt, buf, parserRead]
      · simp [parseChar, parseStr, parserPeekChar, parserPeekAt, charAt, buf, same, Ne.symm same]

namespace OpToken

theorem parse_unguarded {op : OpToken} (visible : '\x00' ∉ op.str) (unguarded : op.guarded = false) :
    op.parse = parseStr op.str := by
  unfold OpToken.parse
  rw [unguarded, if_neg (by decide)]
  split
  · rename_i c single
    rw [single, List.mem_singleton] at visible
    rw [parseChar_eq_parseStr (Ne.symm visible), single]
  · rfl

theorem parse_none {op : OpToken} (visible : '\x00' ∉ op.str) (absent : op.isAt parser.buf = false) :
    op.parse parser = .done false parser := by
  cases guarded : op.guarded with
  | false =>
      have noPrefix : op.str.isPrefixOf parser.buf = false := by simpa [isAt, guarded] using absent
      rw [parse_unguarded visible guarded]
      simp only [parseStr, Run.bind_apply, Run.gets_apply, Outcome.andThen_done, Run.ite_apply, noPrefix,
        Bool.false_eq_true, if_false, Run.pure_apply]
  | true =>
      simp only [isAt, guarded, Bool.not_true, Bool.false_or] at absent
      rw [OpToken.parse, if_pos guarded]
      simp only [parseBinop, Run.bind_apply, Run.gets_apply, Outcome.andThen_done, Run.ite_apply, Run.pure_apply]
      rw [if_neg]
      simpa [Bool.and_assoc] using absent

theorem parse_some {op : OpToken} (visible : '\x00' ∉ op.str) (present : op.isAt parser.buf = true) :
    ∃ rest pos line, parser.buf = op.str ++ rest ∧ op.parse parser = .done true (parser.moved rest pos line) := by
  have starts : op.str.isPrefixOf parser.buf = true := by
    rw [isAt, Bool.and_eq_true] at present
    exact present.1
  obtain ⟨rest, pos, line, buf, read⟩ := parserRead_prefix visible starts
  refine ⟨rest, pos, line, buf, ?_⟩
  cases guarded : op.guarded with
  | false =>
      rw [parse_unguarded visible guarded]
      simp only [parseStr, Run.bind_apply, Run.gets_apply, Outcome.andThen_done, Run.ite_apply, starts, if_true,
        Run.pure_apply, read]
  | true =>
      simp only [isAt, guarded, Bool.not_true, Bool.false_or] at present
      rw [OpToken.parse, if_pos guarded]
      simp only [parseBinop, Run.bind_apply, Run.gets_apply, Outcome.andThen_done, Run.ite_apply, Run.pure_apply,
        read]
      rw [if_pos]
      simpa [Bool.and_assoc] using present

end OpToken

theorem chooseOp_none (ops : List OpToken) (visible : ∀ op ∈ ops, '\x00' ∉ op.str)
    (absent : ops.find? (·.isAt parser.buf) = none) : chooseOp (parsers ops) parser = .done none parser := by
  induction ops with
  | nil => rfl
  | cons op ops ih =>
      rw [List.forall_mem_cons] at visible
      rw [List.find?_eq_none, List.forall_mem_cons] at absent
      have here : op.isAt parser.buf = false := by simpa using absent.1
      have rest := ih visible.2 (List.find?_eq_none.mpr absent.2)
      unfold parsers at rest ⊢
      rw [List.map_cons, chooseOp, Run.bind_of_done (OpToken.parse_none visible.1 here)]
      exact rest

theorem chooseOp_some (ops : List OpToken) (visible : ∀ op ∈ ops, '\x00' ∉ op.str) {op : OpToken}
    (present : ops.find? (·.isAt parser.buf) = some op) :
    ∃ rest pos line, parser.buf = op.str ++ rest ∧
      chooseOp (parsers ops) parser = .done (some op.type) (parser.moved rest pos line) := by
  induction ops with
  | nil => cases present
  | cons first ops ih =>
      rw [List.forall_mem_cons] at visible
      unfold parsers at ih ⊢
      rw [List.map_cons, chooseOp]
      cases here : first.isAt parser.buf with
      | true =>
          rw [List.find?_cons, here] at present
          cases present
          obtain ⟨rest, pos, line, buf, read⟩ := OpToken.parse_some visible.1 here
          refine ⟨rest, pos, line, buf, ?_⟩
          rw [Run.bind_of_done read]
          rfl
      | false =>
          rw [List.find?_cons, here] at present
          obtain ⟨rest, pos, line, buf, read⟩ := ih visible.2 present
          refine ⟨rest, pos, line, buf, ?_⟩
          rw [Run.bind_of_done (OpToken.parse_none visible.1 here)]
          exact read

theorem levelOps_none {level : Nat} (absent : levelOpAt level parser.buf = none) :
    chooseOp (parsers (levelOps level)) parser = .done none parser :=
  chooseOp_none _ (levelOps_visible level) absent

theorem levelOps_some {level : Nat} {op : OpToken} (present : levelOpAt level parser.buf = some op) :
    ∃ rest pos line, parser.buf = op.str ++ rest ∧
      chooseOp (parsers (levelOps level)) parser = .done (some op.type) (parser.moved rest pos line) :=
  chooseOp_some _ (levelOps_visible level) present

theorem consumeWhitespaceWithin_none {fuel : Nat} (visible : isSpace (charAt parser.buf 0) = false) :
    consumeWhitespaceWithin (fuel + 1) parser = .done () parser := by
  simp [consumeWhitespaceWithin, parserPeekChar, parserPeekAt, visible]

theorem consumeWhitespace_none (visible : isSpace (charAt parser.buf 0) = false) :
    consumeWhitespace parser = .done () parser := by
  simp only [consumeWhitespace, bufferFuel, Run.bind_apply, Run.gets_apply, Outcome.andThen_done]
  exact consumeWhitespaceWithin_none visible

theorem consumeWhitespaceWithin_ends {fuel : Nat} (ended : consumeWhitespaceWithin fuel parser = .done () after) :
    isSpace (charAt after.buf 0) = false := by
  induction fuel generalizing parser with
  | zero => cases ended
  | succ fuel ih =>
      rw [consumeWhitespaceWithin, Run.bind_done] at ended
      obtain ⟨c, between, peeked, ended⟩ := ended
      cases peeked
      rw [Run.ite_apply] at ended
      split at ended
      · obtain ⟨_, _, _, rest⟩ := Run.bind_done.mp ended
        exact ih rest
      · rename_i visible
        cases ended
        simpa using visible

theorem consumeWhitespace_ends (ended : consumeWhitespace parser = .done () after) :
    isSpace (charAt after.buf 0) = false := by
  obtain ⟨fuel, between, _, rest⟩ := Run.bind_done.mp ended
  exact consumeWhitespaceWithin_ends rest

/-! ## Where a level ends -/

/-- No level up to the given one goes on at the text. -/
structure Stops (level : Nat) (text : Str) : Prop where
  visible : 1 ≤ level → isSpace (charAt text 0) = false
  noOperator : ∀ lower, 1 ≤ lower → lower ≤ level → levelOpAt lower text = none

theorem Stops.succ {level : Nat} {text : Str} (stops : Stops (level + 1) text)
    (absent : levelOpAt (level + 2) text = none) : Stops (level + 2) text where
  visible _ := stops.visible (by omega)
  noOperator lower positive bounded := by
    by_cases last : lower = level + 2
    · rw [last]
      exact absent
    · exact stops.noOperator lower positive (by omega)

/-- No operator at all goes on at the text, `?` included. -/
def StopsAll (text : Str) : Prop := Stops 10 text ∧ charAt text 0 ≠ '?'

/-- After an expression no operator goes on. -/
def EndsExpressions (self : Parse (Option ArithmExpr)) : Prop :=
  ∀ parser expr after, self parser = .done (some expr) after → StopsAll after.buf

section

variable {bound : Nat} {self : Parse (Option ArithmExpr)} {expr : ArithmExpr}

theorem operand_done {operand : Parse (Option ArithmExpr)} {msg : Str}
    {next : ArithmExpr → Parse (Option ArithmExpr)}
    (ended : (do
      match ← operand with
      | none => do
          parserSetError msg
          pure none
      | some value => next value) parser = .done (some expr) after) :
    ∃ value between, operand parser = .done (some value) between ∧ next value between = .done (some expr) after := by
  obtain ⟨value, between, read, ended⟩ := Run.bind_done.mp ended
  cases value with
  | none =>
      obtain ⟨_, _, _, ended⟩ := Run.bind_done.mp ended
      cases ended
  | some value => exact ⟨value, between, read, ended⟩

/-- Either there is no operator of the level, or one of them is read. -/
theorem chooseOp_buf (level : Nat) {chosen : Option ArithmBinopType}
    (ended : chooseOp (parsers (levelOps level)) parser = .done chosen after) :
    (levelOpAt level parser.buf = none ∧ chosen = none ∧ after = parser) ∨
      ∃ op, levelOpAt level parser.buf = some op ∧ op ∈ levelOps level ∧ chosen = some op.type ∧
        parser.buf = op.str ++ after.buf := by
  cases found : levelOpAt level parser.buf with
  | none =>
      rw [levelOps_none found] at ended
      cases ended
      exact .inl ⟨rfl, rfl, rfl⟩
  | some op =>
      obtain ⟨rest, pos, line, buf, chosen_⟩ := levelOps_some found
      rw [chosen_] at ended
      cases ended
      exact .inr ⟨op, rfl, List.mem_of_find?_eq_some found, rfl, buf⟩

/-! ## One round of each loop -/

theorem factorLoop_round {fuel : Nat} {left : ArithmExpr}
    (ended : factorLoop self (fuel + 1) left parser = .done (some expr) after) :
    ∃ skipped, consumeWhitespace parser = .done () skipped ∧
      (levelOpAt 1 skipped.buf = none ∧ expr = left ∧ after = skipped ∨
        ∃ op right between, levelOpAt 1 skipped.buf = some op ∧
          factorLoop self fuel (.binop op.type left right) between = .done (some expr) after) := by
  obtain ⟨_, skipped, skip, ended⟩ := Run.bind_done.mp ended
  obtain ⟨chosen, _, choose, rest⟩ := Run.bind_done.mp ended
  refine ⟨skipped, skip, ?_⟩
  rcases chooseOp_buf 1 choose with ⟨absent, rfl, rfl⟩ | ⟨op, found, -, rfl, -⟩
  · cases rest
    exact .inl ⟨absent, rfl, rfl⟩
  · obtain ⟨_, _, _, rest⟩ := Run.bind_done.mp rest
    obtain ⟨right, between, _, rest⟩ := operand_done rest
    exact .inr ⟨op, right, between, found, rest⟩

theorem addendLoop_round {fuel : Nat} {left : ArithmExpr}
    (ended : addendLoop bound self (fuel + 1) left parser = .done (some expr) after) :
    levelOpAt 2 parser.buf = none ∧ expr = left ∧ after = parser ∨
      ∃ op right before between, levelOpAt 2 parser.buf = some op ∧
        factor bound self before = .done (some right) between ∧
        addendLoop bound self fuel (.binop op.type left right) between = .done (some expr) after := by
  obtain ⟨chosen, _, choose, rest⟩ := Run.bind_done.mp ended
  rcases chooseOp_buf 2 choose with ⟨absent, rfl, rfl⟩ | ⟨op, found, -, rfl, -⟩
  · cases rest
    exact .inl ⟨absent, rfl, rfl⟩
  · obtain ⟨_, before, _, rest⟩ := Run.bind_done.mp rest
    obtain ⟨right, between, read, rest⟩ := operand_done rest
    exact .inr ⟨op, right, before, between, found, read, rest⟩

theorem rightAssociative_round {operand : Parse (Option ArithmExpr)} {level fuel : Nat} {skip : Parse Unit}
    (ended : rightAssociative operand (parsers (levelOps level)) skip (fuel + 1) parser = .done (some expr) after) :
    ∃ left between, operand parser = .done (some left) between ∧
      (levelOpAt level between.buf = none ∧ expr = left ∧ after = between ∨
        ∃ op right before, levelOpAt level between.buf = some op ∧ expr = .binop op.type left right ∧
          rightAssociative operand (parsers (levelOps level)) skip fuel before = .done (some right) after) := by
  obtain ⟨left, between, read, ended⟩ := Run.bind_done.mp ended
  cases left with
  | none => cases ended
  | some left =>
      obtain ⟨chosen, _, choose, rest⟩ := Run.bind_done.mp ended
      refine ⟨left, between, read, ?_⟩
      rcases chooseOp_buf level choose with ⟨absent, rfl, rfl⟩ | ⟨op, found, -, rfl, -⟩
      · cases rest
        exact .inl ⟨absent, rfl, rfl⟩
      · obtain ⟨_, before, _, rest⟩ := Run.bind_done.mp rest
        obtain ⟨right, _, again, rest⟩ := operand_done rest
        cases rest
        exact .inr ⟨op, right, before, found, rfl, again⟩

theorem factorLoop_stops {fuel : Nat} {left : ArithmExpr}
    (ended : factorLoop self fuel left parser = .done (some expr) after) : Stops 1 after.buf := by
  induction fuel generalizing left parser with
  | zero => cases ended
  | succ fuel ih =>
      obtain ⟨skipped, skip, ⟨absent, rfl, rfl⟩ | ⟨op, right, between, found, further⟩⟩ := factorLoop_round ended
      · refine ⟨fun _ => consumeWhitespace_ends skip, fun lower positive bounded => ?_⟩
        obtain rfl : lower = 1 := by omega
        exact absent
      · exact ih further

theorem factor_stops (ended : factor bound self parser = .done (some expr) after) : Stops 1 after.buf := by
  obtain ⟨left, between, _, ended⟩ := Run.bind_done.mp ended
  cases left with
  | none => cases ended
  | some left => exact factorLoop_stops ended

theorem addendLoop_stops {fuel : Nat} {left : ArithmExpr} (start : Stops 1 parser.buf)
    (ended : addendLoop bound self fuel left parser = .done (some expr) after) : Stops 2 after.buf := by
  induction fuel generalizing left parser with
  | zero => cases ended
  | succ fuel ih =>
      rcases addendLoop_round ended with ⟨absent, rfl, rfl⟩ | ⟨op, right, before, between, found, read, further⟩
      · exact start.succ absent
      · exact ih (factor_stops read) further

theorem addend_stops (ended : addend bound self parser = .done (some expr) after) : Stops 2 after.buf := by
  obtain ⟨left, between, read, ended⟩ := Run.bind_done.mp ended
  cases left with
  | none => cases ended
  | some left => exact addendLoop_stops (factor_stops read) ended

theorem rightAssociative_stops {operand : Parse (Option ArithmExpr)} {level fuel : Nat} {skip : Parse Unit}
    (operandStops : ∀ {parser expr after}, operand parser = .done (some expr) after → Stops (level + 1) after.buf)
    (ended : rightAssociative operand (parsers (levelOps (level + 2))) skip fuel parser = .done (some expr) after) :
    Stops (level + 2) after.buf := by
  induction fuel generalizing expr parser with
  | zero => cases ended
  | succ fuel ih =>
      obtain ⟨left, between, read, ⟨absent, rfl, rfl⟩ | ⟨op, right, before, found, rfl, further⟩⟩ :=
        rightAssociative_round ended
      · exact (operandStops read).succ absent
      · exact ih further

theorem levelParse_stops {level : Nat}
    (ended : levelParse bound self (level + 1) parser = .done (some expr) after) : Stops (level + 1) after.buf := by
  induction level generalizing expr parser after with
  | zero => exact factor_stops ended
  | succ level ih =>
      cases level with
      | zero => exact addend_stops ended
      | succ level => exact rightAssociative_stops ih ended

theorem parseChar_false {c : Char} (ended : parseChar c parser = .done false after) :
    after = parser ∧ charAt parser.buf 0 ≠ c := by
  obtain ⟨next, between, peeked, ended⟩ := Run.bind_done.mp ended
  cases peeked
  by_cases same : charAt parser.buf 0 = c
  · rw [if_pos (by simpa using same)] at ended
    obtain ⟨_, _, _, ended⟩ := Run.bind_done.mp ended
    cases ended
  · rw [if_neg (by simpa using same)] at ended
    cases ended
    exact ⟨rfl, same⟩

theorem ternary_stops {fuel : Nat} (ended : ternary bound self fuel parser = .done (some expr) after) :
    StopsAll after.buf := by
  induction fuel generalizing expr parser with
  | zero => cases ended
  | succ fuel ih =>
      rw [ternary, Run.bind_done] at ended
      obtain ⟨condition, between, read, ended⟩ := ended
      cases condition with
      | none => cases ended
      | some condition =>
          obtain ⟨question, _, choose, ended⟩ := Run.bind_done.mp ended
          cases question with
          | false =>
              obtain ⟨same, noQuestion⟩ := parseChar_false choose
              cases ended
              rw [same]
              exact ⟨levelParse_stops (by rw [levelParse_logicalOr]; exact read), noQuestion⟩
          | true =>
              obtain ⟨body, _, _, ended⟩ := operand_done ended
              obtain ⟨colon, _, _, ended⟩ := Run.bind_done.mp ended
              cases colon with
              | false => cases ended
              | true =>
                  obtain ⟨elsePart, _, readElse, ended⟩ := operand_done ended
                  cases ended
                  exact ih readElse

theorem assignment_stops
    (selfEnds : EndsExpressions self)
    (ended : assignment self parser = .done (some expr) after) : StopsAll after.buf := by
  obtain ⟨nameLen, named, _, ended⟩ := Run.bind_done.mp ended
  rw [Run.ite_apply] at ended
  split at ended
  · cases ended
  · obtain ⟨buf, _, _, ended⟩ := Run.bind_done.mp ended
    cases found : assignOps.find? fun op => op.1.isPrefixOf (buf.drop nameLen) with
    | none =>
        rw [found] at ended
        cases ended
    | some op =>
        rw [found] at ended
        obtain ⟨_, _, _, ended⟩ := Run.bind_done.mp ended
        obtain ⟨_, _, _, ended⟩ := Run.bind_done.mp ended
        obtain ⟨value, _, read, ended⟩ := operand_done ended
        cases ended
        exact selfEnds _ _ _ read

theorem arithmExpr_ends (fuel : Nat) : EndsExpressions (arithmExpr fuel) := by
  intro parser expr after ended
  induction fuel generalizing expr parser after with
  | zero => cases ended
  | succ fuel ih =>
      rw [arithmExpr, Run.bind_done] at ended
      obtain ⟨assigned, between, assign, ended⟩ := ended
      cases assigned with
      | some assigned =>
          cases ended
          exact assignment_stops ih assign
      | none => exact ternary_stops ended

end

/-! ## Expressions that start with an unary operator -/

/-- The first operand of the expression, at any depth. -/
def leftmost : ArithmExpr → ArithmExpr
  | .binop _ left _ => leftmost left
  | expr => expr

/-- The expression is an unary operation, after which no operator goes on, or does not start with one. -/
def TakesAll (expr : ArithmExpr) (rest : Str) : Prop :=
  (∃ type body, expr = .unop type body ∧ StopsAll rest) ∨ ∀ type body, leftmost expr ≠ .unop type body

theorem TakesAll.binop {left right : ArithmExpr} {rest : Str} {type : ArithmBinopType}
    (plain : ∀ type body, leftmost left ≠ .unop type body) : TakesAll (.binop type left right) rest :=
  .inr plain

section

variable {bound : Nat} {self : Parse (Option ArithmExpr)} {expr : ArithmExpr}

theorem arithmLiteral_plain (ended : arithmLiteral parser = .done (some expr) after) :
    ∀ type body, leftmost expr ≠ .unop type body := by
  obtain ⟨buf, _, _, ended⟩ := Run.bind_done.mp ended
  rw [Run.ite_apply] at ended
  split at ended
  · cases ended
  · obtain ⟨str, _, _, ended⟩ := Run.bind_done.mp ended
    rw [Run.ite_apply] at ended
    split at ended
    · obtain ⟨_, _, _, ended⟩ := Run.bind_done.mp ended
      cases ended
    · cases ended
      intro type body same
      cases same

theorem arithmVariable_plain (ended : arithmVariable parser = .done (some expr) after) :
    ∀ type body, leftmost expr ≠ .unop type body := by
  obtain ⟨nameLen, _, _, ended⟩ := Run.bind_done.mp ended
  rw [Run.ite_apply] at ended
  split at ended
  · cases ended
  · obtain ⟨name, _, _, ended⟩ := Run.bind_done.mp ended
    cases ended
    intro type body same
    cases same

theorem arithmTerm_takesAll (starts : (unopType (charAt parser.buf 0)).isSome = true)
    (selfEnds : EndsExpressions self)
    (ended : arithmTerm self parser = .done (some expr) after) : TakesAll expr after.buf := by
  obtain ⟨parenthesised, between, tryParen, ended⟩ := Run.bind_done.mp ended
  have noParen : paren self parser = .done none parser := by
    have different : charAt parser.buf 0 ≠ '(' := by
      intro same
      rw [same] at starts
      cases starts
    have unread : parseChar '(' parser = .done false parser := by
      simp [parseChar, parserPeekChar, parserPeekAt, different]
    rw [paren, Run.bind_of_done unread]
    rfl
  rw [noParen] at tryParen
  cases tryParen
  obtain ⟨unary, between, tryUnop, ended⟩ := Run.bind_done.mp ended
  cases unary with
  | some unary =>
      cases ended
      refine .inl ?_
      obtain ⟨c, _, peeked, tryUnop⟩ := Run.bind_done.mp tryUnop
      cases peeked
      obtain ⟨type, found⟩ := Option.isSome_iff_exists.mp starts
      rw [found] at tryUnop
      obtain ⟨_, _, _, tryUnop⟩ := Run.bind_done.mp tryUnop
      obtain ⟨body, _, read, tryUnop⟩ := Run.bind_done.mp tryUnop
      cases body with
      | none =>
          obtain ⟨_, _, _, tryUnop⟩ := Run.bind_done.mp tryUnop
          cases tryUnop
      | some body =>
          cases tryUnop
          exact ⟨type, body, rfl, selfEnds _ _ _ read⟩
  | none =>
      refine .inr ?_
      obtain ⟨number, _, tryLiteral, ended⟩ := Run.bind_done.mp ended
      cases number with
      | some number =>
          cases ended
          exact arithmLiteral_plain tryLiteral
      | none =>
          obtain ⟨name, _, tryVariable, ended⟩ := Run.bind_done.mp ended
          cases name with
          | some name =>
              cases ended
              exact arithmVariable_plain tryVariable
          | none => cases ended

theorem TakesAll.ends {rest : Str} (takesAll : TakesAll expr rest) {level : Nat} {op : OpToken}
    (positive : 1 ≤ level) (bounded : level ≤ 10) (found : levelOpAt level rest = some op) :
    ∀ type body, leftmost expr ≠ .unop type body := by
  rcases takesAll with ⟨_, _, _, stops⟩ | plain
  · rw [stops.1.noOperator level positive bounded] at found
    cases found
  · exact plain

theorem factorLoop_takesAll {fuel : Nat} {left : ArithmExpr} (start : TakesAll left parser.buf)
    (ended : factorLoop self fuel left parser = .done (some expr) after) : TakesAll expr after.buf := by
  induction fuel generalizing left parser with
  | zero => cases ended
  | succ fuel ih =>
      obtain ⟨skipped, skip, round⟩ := factorLoop_round ended
      have startSkipped : TakesAll left skipped.buf := by
        rcases start with ⟨type, body, same, stops⟩ | plain
        · rw [consumeWhitespace_none (stops.1.visible (by omega))] at skip
          cases skip
          exact .inl ⟨type, body, same, stops⟩
        · exact .inr plain
      rcases round with ⟨-, rfl, rfl⟩ | ⟨op, right, between, found, further⟩
      · exact startSkipped
      · exact ih (TakesAll.binop (startSkipped.ends (by omega) (by omega) found)) further

theorem addendLoop_takesAll {fuel : Nat} {left : ArithmExpr} (start : TakesAll left parser.buf)
    (ended : addendLoop bound self fuel left parser = .done (some expr) after) : TakesAll expr after.buf := by
  induction fuel generalizing left parser with
  | zero => cases ended
  | succ fuel ih =>
      rcases addendLoop_round ended with ⟨-, rfl, rfl⟩ | ⟨op, right, before, between, found, -, further⟩
      · exact start
      · exact ih (TakesAll.binop (start.ends (by omega) (by omega) found)) further

theorem rightAssociative_takesAll {operand : Parse (Option ArithmExpr)} {level fuel : Nat} {skip : Parse Unit}
    (bounded : level + 2 ≤ 10)
    (operandTakes : ∀ {expr after}, operand parser = .done (some expr) after → TakesAll expr after.buf)
    (ended : rightAssociative operand (parsers (levelOps (level + 2))) skip fuel parser = .done (some expr) after) :
    TakesAll expr after.buf := by
  cases fuel with
  | zero => cases ended
  | succ fuel =>
      obtain ⟨left, between, read, ⟨-, rfl, rfl⟩ | ⟨op, right, before, found, rfl, -⟩⟩ := rightAssociative_round ended
      · exact operandTakes read
      · exact TakesAll.binop ((operandTakes read).ends (by omega) bounded found)

theorem levelParse_takesAll {level : Nat} (bounded : level ≤ 10)
    (starts : (unopType (charAt parser.buf 0)).isSome = true)
    (selfEnds : EndsExpressions self)
    (ended : levelParse bound self level parser = .done (some expr) after) : TakesAll expr after.buf := by
  induction level generalizing expr after with
  | zero => exact arithmTerm_takesAll starts selfEnds ended
  | succ level ih =>
      have below : ∀ {expr after}, levelParse bound self level parser = .done (some expr) after →
          TakesAll expr after.buf := ih (by omega)
      match level with
      | 0 =>
          obtain ⟨left, between, read, ended⟩ := Run.bind_done.mp ended
          cases left with
          | none => cases ended
          | some left => exact factorLoop_takesAll (below read) ended
      | 1 =>
          obtain ⟨left, between, read, ended⟩ := Run.bind_done.mp ended
          cases left with
          | none => cases ended
          | some left => exact addendLoop_takesAll (below read) ended
      | level + 2 => exact rightAssociative_takesAll bounded below ended

theorem ternary_notUnaryLeft {fuel : Nat} (starts : (unopType (charAt parser.buf 0)).isSome = true)
    (selfEnds : EndsExpressions self)
    (ended : ternary bound self fuel parser = .done (some expr) after)
    (operator : ArithmBinopType) (type : ArithmUnopType) (left right : ArithmExpr) :
    expr ≠ .binop operator (.unop type left) right := by
  rintro rfl
  cases fuel with
  | zero => cases ended
  | succ fuel =>
      rw [ternary, Run.bind_done] at ended
      obtain ⟨condition, between, read, ended⟩ := ended
      cases condition with
      | none => cases ended
      | some condition =>
          have takesAll : TakesAll condition between.buf :=
            levelParse_takesAll (Nat.le_refl 10) starts selfEnds (by rw [levelParse_logicalOr]; exact read)
          obtain ⟨question, _, choose, ended⟩ := Run.bind_done.mp ended
          cases question with
          | false =>
              cases ended
              rcases takesAll with ⟨_, _, different, _⟩ | plain
              · cases different
              · exact plain type left rfl
          | true =>
              obtain ⟨body, _, _, ended⟩ := operand_done ended
              obtain ⟨colon, _, _, ended⟩ := Run.bind_done.mp ended
              cases colon with
              | false => cases ended
              | true =>
                  obtain ⟨elsePart, _, _, ended⟩ := operand_done ended
                  cases ended

end

/-! ## Texts of unary operators -/

def unopChar : ArithmUnopType → Char
  | .plus => '+'
  | .minus => '-'
  | .tilde => '~'
  | .bang => '!'

theorem unopType_unopChar (type : ArithmUnopType) : unopType (unopChar type) = some type := by
  cases type <;> rfl

def binopToken : ArithmBinopType → OpToken
  | .asterisk => ⟨['*'], false, .asterisk⟩
  | .slash => ⟨['/'], false, .slash⟩
  | .percent => ⟨['%'], false, .percent⟩
  | .plus => ⟨['+'], false, .plus⟩
  | .minus => ⟨['-'], false, .minus⟩
  | .dless => ⟨['<', '<'], false, .dless⟩
  | .dgreat => ⟨['>', '>'], false, .dgreat⟩
  | .less => ⟨['<'], false, .less⟩
  | .lesseq => ⟨['<', '='], false, .lesseq⟩
  | .great => ⟨['>'], false, .great⟩
  | .greateq => ⟨['>', '='], false, .greateq⟩
  | .deq => ⟨['=', '='], false, .deq⟩
  | .bangeq => ⟨['!', '='], false, .bangeq⟩
  | .and => ⟨['&'], true, .and⟩
  | .circ => ⟨['^'], true, .circ⟩
  | .or => ⟨['|'], true, .or⟩
  | .dand => ⟨['&', '&'], true, .dand⟩
  | .dor => ⟨['|', '|'], true, .dor⟩

/-- An operand as it is written: a number, a name, or any text between parentheses. -/
inductive WrittenOperand where
  | literal (value : Nat)
  | var (name : Str)
  | paren (text : Str) (expr : ArithmExpr)

namespace WrittenOperand

def text : WrittenOperand → Str
  | .literal value => decimal value
  | .var name => name
  | .paren text _ => '(' :: (text ++ [')'])

def expr : WrittenOperand → ArithmExpr
  | .literal value => .literal value
  | .var name => .var name
  | .paren _ expr => expr

end WrittenOperand

theorem peekName_none (nonempty : symbolAt parser.buf = some .token)
    (noName : nameLength false true parser.buf = 0) (fresh : parser.hasSym = false) :
    peekName false parser = .done 0 { parser with hasSym := true, sym := .token } := by
  have next := nextSymbolWithin_of_symbolAt parser parser.buf.length nonempty
  simp [peekName, Mrsh.symbol, getSymbol, fresh, nextSymbol, bufferFuel, next, noName]

/-- The operand of an unary operator is all that follows, so that no text of the form `u a o b` is
the operation `o` on `u a` and `b`. -/
theorem unary_takes_binary (fuel : Nat) (type : ArithmUnopType) (operator : ArithmBinopType)
    (left right : WrittenOperand) (gap before behind : Str) (after : Parser) :
    mrshParseArithmExpr fuel (mrshParserWithData
        (unopChar type :: (gap ++ left.text ++ before ++ (binopToken operator).str ++ behind ++ right.text))) ≠
      .done (some (.binop operator (.unop type left.expr) right.expr)) after := by
  intro ended
  let start := mrshParserWithData
    (unopChar type :: (gap ++ left.text ++ before ++ (binopToken operator).str ++ behind ++ right.text))
  have first : charAt start.buf 0 = unopChar type := rfl
  have visible : isSpace (charAt start.buf 0) = false := by
    rw [first]
    cases type <;> rfl
  have token : symbolAt start.buf = some .token := by
    cases type <;> rfl
  have noName : nameLength false true start.buf = 0 := by
    cases type <;> rfl
  rw [mrshParseArithmExpr, Run.bind_of_done (consumeWhitespace_none visible)] at ended
  obtain ⟨expr, between, read, ended⟩ := Run.bind_done.mp ended
  cases expr with
  | none => cases ended
  | some expr =>
      have same : expr = .binop operator (.unop type left.expr) right.expr := by
        obtain ⟨_, _, peeked, ended⟩ := Run.bind_done.mp ended
        cases peeked
        rw [Run.ite_apply] at ended
        split at ended
        · obtain ⟨_, _, _, ended⟩ := Run.bind_done.mp ended
          cases ended
        · cases ended
          rfl
      subst same
      cases fuel with
      | zero => cases read
      | succ fuel =>
          have unassigned : assignment (arithmExpr fuel) start =
              .done none { start with hasSym := true, sym := .token } := by
            rw [assignment, Run.bind_of_done (peekName_none token noName rfl)]
            rfl
          rw [arithmExpr, Run.bind_of_done unassigned] at read
          let found : Parser := { start with hasSym := true, sym := .token }
          have starts : (unopType (charAt found.buf 0)).isSome = true := by
            rw [show charAt found.buf 0 = unopChar type from first, unopType_unopChar]
            rfl
          change ternary fuel (arithmExpr fuel) fuel found = _ at read
          exact ternary_notUnaryLeft starts (arithmExpr_ends fuel) read operator type left.expr right.expr rfl

/-- `-1+2` is the negation of `1+2`. -/
theorem minus_takes_sum :
    (mrshParseArithmExpr 6 (mrshParserWithData "-1+2".toList)).value? =
      some (some (.unop .minus (.binop .plus (.literal 1) (.literal 2)))) := by
  decide +kernel

end Mrsh
