import Mrsh.Parser.State

namespace Mrsh

open Mrsh.Data

/-! # Arithmetic expressions

The expressions of `include/mrsh/arithm.h` and their parser `parser/arithm.c`.
A number that no `strtol` reads completely and in range is an error.
-/

inductive ArithmUnopType where
  | plus | minus | tilde | bang
deriving Repr, DecidableEq

inductive ArithmBinopType where
  | asterisk | slash | percent | plus | minus | dless | dgreat
  | less | lesseq | great | greateq | deq | bangeq
  | and | circ | or | dand | dor
deriving Repr, DecidableEq

inductive ArithmAssignOp where
  | none | asterisk | slash | percent | plus | minus | dless | dgreat | and | circ | or
deriving Repr, DecidableEq

inductive ArithmExpr where
  | literal (value : Int)
  | var (name : Str)
  | unop (type : ArithmUnopType) (body : ArithmExpr)
  | binop (type : ArithmBinopType) (left right : ArithmExpr)
  | cond (condition body elsePart : ArithmExpr)
  | assign (op : ArithmAssignOp) (name : Str) (value : ArithmExpr)
deriving Repr, DecidableEq

/-! ## Characters and operators -/

def parseChar (c : Char) : Parse Bool := do
  let next ← parserPeekChar
  if next == c then
    let _ ← parserReadChar
    pure true
  else pure false

def consumeWhitespaceWithin : Nat → Parse Unit
  | 0 => Run.stop .outOfFuel
  | fuel + 1 => do
      let c ← parserPeekChar
      if isSpace c then
        let _ ← parserReadChar
        consumeWhitespaceWithin fuel
      else pure ()

def consumeWhitespace : Parse Unit := do
  let fuel ← bufferFuel
  consumeWhitespaceWithin fuel

def expectChar (c : Char) : Parse Bool := do
  if ← parseChar c then pure true
  else do
    parserSetError ("expected '".toList ++ [c, '\''])
    pure false

def parseStr (str : Str) : Parse Bool := do
  let buf ← Run.gets (·.buf)
  if str.isPrefixOf buf then
    let _ ← parserRead str.length
    pure true
  else pure false

/-- `parse_binop`, which does not take `&&` for `&`. -/
def parseBinop (str : Str) : Parse Bool := do
  let buf ← Run.gets (·.buf)
  let next := charAt buf str.length
  if str.isPrefixOf buf && next != '|' && next != '&' then
    let _ ← parserRead str.length
    pure true
  else pure false

/-- The first operator that `parse` accepts. -/
def chooseOp {α : Type} : List (Parse Bool × α) → Parse (Option α)
  | [] => pure none
  | (parse, op) :: rest => do
      if ← parse then pure (some op) else chooseOp rest

/-! ## Expressions -/

def arithmLiteral : Parse (Option ArithmExpr) := do
  let buf ← Run.gets (·.buf)
  let len := (buf.takeWhile Char.isDigit).length
  if len == 0 then pure none
  else do
    let str ← parserRead len
    let scanned := strtol 0 str
    if !scanned.rest.isEmpty || scanned.outOfRange then do
      parserSetError "failed to parse literal".toList
      pure none
    else pure (some (.literal scanned.value))

def arithmVariable : Parse (Option ArithmExpr) := do
  let nameLen ← peekName false
  if nameLen == 0 then pure none
  else do
    let name ← parserRead nameLen
    pure (some (.var name))

def unopType (c : Char) : Option ArithmUnopType :=
  if c == '+' then some .plus
  else if c == '-' then some .minus
  else if c == '~' then some .tilde
  else if c == '!' then some .bang
  else none

section

-- `self` is the recursive call of `arithm_expr`, and `bound` limits the number
-- of operators of one level.
variable (bound : Nat) (self : Parse (Option ArithmExpr))

def unop : Parse (Option ArithmExpr) := do
  let c ← parserPeekChar
  match unopType c with
  | none => pure none
  | some type => do
      let _ ← parserReadChar
      match ← self with
      | none => do
          parserSetError "expected an arithmetic expression after unary operator".toList
          pure none
      | some body => pure (some (.unop type body))

def paren : Parse (Option ArithmExpr) := do
  if ← parseChar '(' then
    consumeWhitespace
    let expr ← self
    if ← expectChar ')' then pure expr else pure none
  else pure none

/-- The first alternative that succeeds. An error does not end the search. -/
def firstExpr : List (Parse (Option ArithmExpr)) → Parse (Option ArithmExpr)
  | [] => pure none
  | parse :: rest => do
      match ← parse with
      | some expr => pure (some expr)
      | none => firstExpr rest

def arithmTerm : Parse (Option ArithmExpr) :=
  firstExpr [paren self, unop self, arithmLiteral, arithmVariable]

def factorLoop : Nat → ArithmExpr → Parse (Option ArithmExpr)
  | 0, _ => Run.stop .outOfFuel
  | fuel + 1, expr => do
      consumeWhitespace
      match ← chooseOp [(parseChar '*', .asterisk), (parseChar '/', .slash),
          (parseChar '%', .percent)] with
      | none => pure (some expr)
      | some type => do
          consumeWhitespace
          match ← arithmTerm self with
          | none => do
              parserSetError "expected a term after *, / or % operator".toList
              pure none
          | some right => factorLoop fuel (.binop type expr right)

def factor : Parse (Option ArithmExpr) := do
  match ← arithmTerm self with
  | none => pure none
  | some expr => factorLoop self bound expr

def addendLoop : Nat → ArithmExpr → Parse (Option ArithmExpr)
  | 0, _ => Run.stop .outOfFuel
  | fuel + 1, expr => do
      match ← chooseOp [(parseChar '+', .plus), (parseChar '-', .minus)] with
      | none => pure (some expr)
      | some type => do
          consumeWhitespace
          match ← factor bound self with
          | none => do
              parserSetError "expected a factor after + or - operator".toList
              pure none
          | some right => addendLoop fuel (.binop type expr right)

def addend : Parse (Option ArithmExpr) := do
  match ← factor bound self with
  | none => pure none
  | some expr => addendLoop bound self bound expr

/-- A right-associative level: an operand, an operator and the same level again.
`skip` is what is read between the operator and the right operand. -/
def rightAssociative (operand : Parse (Option ArithmExpr)) (ops : List (Parse Bool × ArithmBinopType))
    (skip : Parse Unit) : Nat → Parse (Option ArithmExpr)
  | 0 => Run.stop .outOfFuel
  | fuel + 1 => do
      match ← operand with
      | none => pure none
      | some left =>
          match ← chooseOp ops with
          | none => pure (some left)
          | some type => do
              skip
              match ← rightAssociative operand ops skip fuel with
              | none => do
                  parserSetError "expected a term".toList
                  pure none
              | some right => pure (some (.binop type left right))

def arithmShift : Parse (Option ArithmExpr) :=
  rightAssociative (addend bound self)
    [(parseStr ['<', '<'], .dless), (parseStr ['>', '>'], .dgreat)] consumeWhitespace bound

def comp : Parse (Option ArithmExpr) :=
  rightAssociative (arithmShift bound self)
    [(parseStr ['<', '='], .lesseq), (parseChar '<', .less), (parseStr ['>', '='], .greateq),
     (parseChar '>', .great)] consumeWhitespace bound

/-- No whitespace is skipped after the operator. -/
def equal : Parse (Option ArithmExpr) :=
  rightAssociative (comp bound self)
    [(parseStr ['=', '='], .deq), (parseStr ['!', '='], .bangeq)] (pure ()) bound

def binop (type : ArithmBinopType) (str : Str) (term : Parse (Option ArithmExpr)) :
    Parse (Option ArithmExpr) :=
  rightAssociative term [(parseBinop str, type)] consumeWhitespace bound

def bitwiseAnd : Parse (Option ArithmExpr) := binop bound .and ['&'] (equal bound self)

def bitwiseXor : Parse (Option ArithmExpr) := binop bound .circ ['^'] (bitwiseAnd bound self)

def bitwiseOr : Parse (Option ArithmExpr) := binop bound .or ['|'] (bitwiseXor bound self)

def logicalAnd : Parse (Option ArithmExpr) := binop bound .dand ['&', '&'] (bitwiseOr bound self)

def logicalOr : Parse (Option ArithmExpr) := binop bound .dor ['|', '|'] (logicalAnd bound self)

def ternary : Nat → Parse (Option ArithmExpr)
  | 0 => Run.stop .outOfFuel
  | fuel + 1 => do
      match ← logicalOr bound self with
      | none => pure none
      | some condition =>
          if ← parseChar '?' then
            match ← ternary fuel with
            | none => do
                parserSetError "expected a logical or term".toList
                pure none
            | some body =>
                if ← expectChar ':' then
                  match ← ternary fuel with
                  | none => do
                      parserSetError "expected an or term".toList
                      pure none
                  | some elsePart => pure (some (.cond condition body elsePart))
                else pure none
          else pure (some condition)

def assignOps : List (Str × ArithmAssignOp) :=
  [(['='], .none), (['*', '='], .asterisk), (['/', '='], .slash), (['%', '='], .percent),
   (['+', '='], .plus), (['-', '='], .minus), (['<', '<', '='], .dless), (['>', '>', '='], .dgreat),
   (['&', '='], .and), (['^', '='], .circ), (['|', '='], .or)]

def assignment : Parse (Option ArithmExpr) := do
  let nameLen ← peekName false
  if nameLen == 0 then pure none
  else do
    let buf ← Run.gets (·.buf)
    match assignOps.find? fun op => op.1.isPrefixOf (buf.drop nameLen) with
    | none => pure none
    | some (str, op) => do
        let name ← parserRead nameLen
        let _ ← parserRead str.length
        match ← self with
        | none => do
            parserSetError "expected an assignment value".toList
            pure none
        | some value => pure (some (.assign op name value))

end

def arithmExpr : Nat → Parse (Option ArithmExpr)
  | 0 => Run.stop .outOfFuel
  | fuel + 1 => do
      match ← assignment (arithmExpr fuel) with
      | some expr => pure (some expr)
      | none => ternary fuel (arithmExpr fuel) fuel

def mrshParseArithmExpr (fuel : Nat) : Parse (Option ArithmExpr) := do
  consumeWhitespace
  match ← arithmExpr fuel with
  | none => pure none
  | some expr => do
      let c ← parserPeekChar
      if c != '\x00' then do
        parserSetError "garbage at the end of the arithmetic expression".toList
        pure none
      else pure (some expr)

end Mrsh
