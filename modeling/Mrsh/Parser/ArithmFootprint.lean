import Mrsh.Data.EndsAlike
import Mrsh.Parser.ArithmLevels

namespace Mrsh

open Mrsh.Data

/-! # What the arithmetic parser keeps

The parser keeps the token that it has found, and an error that it has reported. With
more fuel, it ends as it does with less.
-/

/-- The parser has found a token, which it keeps. -/
def AtToken (parser : Parser) : Prop := parser.hasSym = true ∧ parser.sym = .token

/-- From a token, the parser keeps the token and its error. -/
def Keeps (parser after : Parser) : Prop :=
  AtToken parser → AtToken after ∧ (after.error = none → parser.error = none)

instance : Std.Refl Keeps := ⟨fun _ atToken => ⟨atToken, id⟩⟩

instance : IsTrans Parser Keeps where
  trans first between after keeps keepsRest atToken := by
    obtain ⟨atBetween, noError⟩ := keeps atToken
    obtain ⟨atAfter, noErrorRest⟩ := keepsRest atBetween
    exact ⟨atAfter, fun none => noError (noErrorRest none)⟩

/-! ## The token is kept -/

theorem keeps_refl (parser : Parser) : Keeps parser parser := Std.Refl.refl parser

theorem parserReadChar_keeps : Run.Respects Keeps parserReadChar := by
  intro parser
  cases buf : parser.buf with
  | nil => simpa [parserReadChar, buf] using keeps_refl parser
  | cons c rest =>
      by_cases nul : c = '\x00'
      · simpa [parserReadChar, buf, nul] using keeps_refl parser
      · have moved : Keeps parser (parser.moved rest (parser.pos.advance c) false) := fun atToken => ⟨atToken, id⟩
        simpa [parserReadChar, buf, nul, Parser.moved] using moved

theorem parserRead_keeps (size : Nat) : Run.Respects Keeps (parserRead size) := by
  induction size with
  | zero => exact .pure _
  | succ size ih => exact .bind parserReadChar_keeps fun _ => .bind ih fun _ => .pure _

theorem parserSetError_keeps (msg : Str) : Run.Respects Keeps (parserSetError msg) := by
  refine .modify fun parser => ?_
  cases failed : parser.error with
  | none => exact fun atToken => ⟨atToken, fun none => failed⟩
  | some error => exact Std.Refl.refl parser

theorem AtToken.peekName {parser : Parser} (atToken : AtToken parser) (inBraces : Bool) :
    Mrsh.peekName inBraces parser = .done (nameLength inBraces true parser.buf) parser := by
  simp [Mrsh.peekName, symbol, getSymbol, atToken.1, atToken.2]

theorem peekName_keeps (inBraces : Bool) : Run.Respects Keeps (peekName inBraces) := by
  intro parser atToken
  rw [atToken.peekName]
  exact ⟨atToken, id⟩

theorem parseChar_keeps (c : Char) : Run.Respects Keeps (parseChar c) :=
  .bind (.gets _) fun _ => .ite (fun _ => .bind parserReadChar_keeps fun _ => .pure _) fun _ => .pure _

theorem consumeWhitespaceWithin_keeps (fuel : Nat) : Run.Respects Keeps (consumeWhitespaceWithin fuel) := by
  induction fuel with
  | zero => exact .stop _
  | succ fuel ih =>
      exact .bind (.gets _) fun _ => .ite (fun _ => .bind parserReadChar_keeps fun _ => ih) fun _ => .pure _

theorem consumeWhitespace_keeps : Run.Respects Keeps consumeWhitespace :=
  .bind (.gets _) fun _ => consumeWhitespaceWithin_keeps _

theorem levelSkip_keeps (level : Nat) : Run.Respects Keeps (levelSkip level) :=
  .ite (fun _ => .pure _) fun _ => consumeWhitespace_keeps

theorem error_keeps {α : Type} (msg : Str) (value : α) :
    Run.Respects Keeps (parserSetError msg >>= fun _ => pure value) :=
  .bind (parserSetError_keeps msg) fun _ => .pure _

theorem expectChar_keeps (c : Char) : Run.Respects Keeps (expectChar c) :=
  .bind (parseChar_keeps c) fun _ => .ite (fun _ => .pure _) fun _ => error_keeps _ _

theorem parseStr_keeps (str : Str) : Run.Respects Keeps (parseStr str) :=
  .bind (.gets _) fun _ => .ite (fun _ => .bind (parserRead_keeps _) fun _ => .pure _) fun _ => .pure _

theorem parseBinop_keeps (str : Str) : Run.Respects Keeps (parseBinop str) :=
  .bind (.gets _) fun _ => .ite (fun _ => .bind (parserRead_keeps _) fun _ => .pure _) fun _ => .pure _

theorem OpToken.parse_keeps (op : OpToken) : Run.Respects Keeps op.parse := by
  unfold OpToken.parse
  refine .ite (fun _ => parseBinop_keeps _) fun _ => ?_
  split
  · exact parseChar_keeps _
  · exact parseStr_keeps _

theorem chooseOp_keeps (ops : List OpToken) : Run.Respects Keeps (chooseOp (parsers ops)) := by
  induction ops with
  | nil => exact .pure _
  | cons op ops ih => exact .bind op.parse_keeps fun _ => .ite (fun _ => .pure _) fun _ => ih

theorem bindOption_keeps {α β : Type} {first : Parse (Option α)} {next : Option α → Parse β}
    (firstKeeps : Run.Respects Keeps first) (noneKeeps : Run.Respects Keeps (next none))
    (someKeeps : ∀ value, Run.Respects Keeps (next (some value))) : Run.Respects Keeps (first >>= next) :=
  .bind firstKeeps fun value =>
    match value with
    | none => noneKeeps
    | some value => someKeeps value

theorem arithmLiteral_keeps : Run.Respects Keeps arithmLiteral := by
  refine .bind (.gets _) fun _ => .ite (fun _ => .pure _) fun _ => .bind (parserRead_keeps _) fun _ => ?_
  exact .ite (fun _ => error_keeps _ _) fun _ => .pure _

theorem arithmVariable_keeps : Run.Respects Keeps arithmVariable :=
  .bind (peekName_keeps _) fun _ => .ite (fun _ => .pure _) fun _ => .bind (parserRead_keeps _) fun _ => .pure _

section

variable {bound : Nat} {self : Parse (Option ArithmExpr)} (selfKeeps : Run.Respects Keeps self)

include selfKeeps

theorem unop_keeps : Run.Respects Keeps (unop self) := by
  refine .bind (.gets _) fun c => ?_
  match unopType c with
  | none => exact .pure _
  | some type =>
      exact .bind parserReadChar_keeps fun _ => bindOption_keeps selfKeeps (error_keeps _ _) fun _ => .pure _

theorem paren_keeps : Run.Respects Keeps (paren self) := by
  refine .bind (parseChar_keeps _) fun _ => .ite (fun _ => ?_) fun _ => .pure _
  refine .bind consumeWhitespace_keeps fun _ => .bind selfKeeps fun _ => .bind (expectChar_keeps _) fun _ => ?_
  exact .ite (fun _ => .pure _) fun _ => .pure _

omit selfKeeps in
theorem firstExpr_keeps {parses : List (Parse (Option ArithmExpr))}
    (keeps : ∀ parse ∈ parses, Run.Respects Keeps parse) : Run.Respects Keeps (firstExpr parses) := by
  induction parses with
  | nil => exact .pure _
  | cons parse parses ih =>
      rw [List.forall_mem_cons] at keeps
      exact bindOption_keeps keeps.1 (ih keeps.2) fun _ => .pure _

omit selfKeeps in
theorem constants_keep : Run.Respects Keeps (firstExpr [arithmLiteral, arithmVariable]) := by
  apply firstExpr_keeps
  simp [arithmLiteral_keeps, arithmVariable_keeps]

theorem alternatives_keep : Run.Respects Keeps (firstExpr [unop self, arithmLiteral, arithmVariable]) := by
  apply firstExpr_keeps
  simp [unop_keeps selfKeeps, arithmLiteral_keeps, arithmVariable_keeps]

theorem arithmTerm_keeps : Run.Respects Keeps (arithmTerm self) := by
  apply firstExpr_keeps
  simp [paren_keeps selfKeeps, unop_keeps selfKeeps, arithmLiteral_keeps, arithmVariable_keeps]

theorem factorLoop_keeps (fuel : Nat) (expr : ArithmExpr) : Run.Respects Keeps (factorLoop self fuel expr) := by
  induction fuel generalizing expr with
  | zero => exact .stop _
  | succ fuel ih =>
      refine .bind consumeWhitespace_keeps fun _ => ?_
      refine bindOption_keeps (chooseOp_keeps (levelOps 1)) (.pure _) fun _ => ?_
      exact .bind consumeWhitespace_keeps fun _ =>
        bindOption_keeps (arithmTerm_keeps selfKeeps) (error_keeps _ _) fun _ => ih _

theorem factor_keeps : Run.Respects Keeps (factor bound self) :=
  bindOption_keeps (arithmTerm_keeps selfKeeps) (.pure _) fun _ => factorLoop_keeps selfKeeps _ _

theorem addendLoop_keeps (fuel : Nat) (expr : ArithmExpr) : Run.Respects Keeps (addendLoop bound self fuel expr) := by
  induction fuel generalizing expr with
  | zero => exact .stop _
  | succ fuel ih =>
      refine bindOption_keeps (chooseOp_keeps (levelOps 2)) (.pure _) fun _ => ?_
      exact .bind consumeWhitespace_keeps fun _ =>
        bindOption_keeps (factor_keeps selfKeeps) (error_keeps _ _) fun _ => ih _

omit selfKeeps in
theorem rightAssociative_keeps {operand : Parse (Option ArithmExpr)} {level : Nat}
    (operandKeeps : Run.Respects Keeps operand) (fuel : Nat) :
    Run.Respects Keeps (rightAssociative operand (parsers (levelOps level)) (levelSkip level) fuel) := by
  induction fuel with
  | zero => exact .stop _
  | succ fuel ih =>
      refine bindOption_keeps operandKeeps (.pure _) fun _ => ?_
      refine bindOption_keeps (chooseOp_keeps (levelOps level)) (.pure _) fun _ => .bind (levelSkip_keeps level)
        fun _ => ?_
      exact bindOption_keeps ih (error_keeps _ _) fun _ => .pure _

theorem levelParse_keeps (level : Nat) : Run.Respects Keeps (levelParse bound self level) := by
  induction level with
  | zero => exact arithmTerm_keeps selfKeeps
  | succ level ih =>
      match level with
      | 0 => exact factor_keeps selfKeeps
      | 1 => exact bindOption_keeps ih (.pure _) fun _ => addendLoop_keeps selfKeeps _ _
      | level + 2 => exact rightAssociative_keeps ih _

theorem ternary_keeps (fuel : Nat) : Run.Respects Keeps (ternary bound self fuel) := by
  induction fuel with
  | zero => exact .stop _
  | succ fuel ih =>
      refine bindOption_keeps (levelParse_keeps selfKeeps 10) (.pure _) fun _ => ?_
      refine .bind (parseChar_keeps _) fun _ => .ite (fun _ => ?_) fun _ => .pure _
      refine bindOption_keeps ih (error_keeps _ _) fun _ => .bind (expectChar_keeps _) fun _ => ?_
      exact .ite (fun _ => bindOption_keeps ih (error_keeps _ _) fun _ => .pure _) fun _ => .pure _

theorem assignment_keeps : Run.Respects Keeps (assignment self) := by
  refine .bind (peekName_keeps _) fun _ => .ite (fun _ => .pure _) fun _ => .bind (.gets _) fun _ => ?_
  split
  · exact .pure _
  · refine .bind (parserRead_keeps _) fun _ => .bind (parserRead_keeps _) fun _ => ?_
    exact bindOption_keeps selfKeeps (error_keeps _ _) fun _ => .pure _

end

theorem arithmExpr_keeps (fuel : Nat) : Run.Respects Keeps (arithmExpr fuel) := by
  induction fuel with
  | zero => exact .stop _
  | succ fuel ih => exact bindOption_keeps (assignment_keeps ih) (ternary_keeps ih _) fun _ => .pure _

/-! ## More fuel -/

variable {bound largerBound fuel largerFuel : Nat} {self other : Parse (Option ArithmExpr)}

open Run (Extends)

theorem bindOption_extends {α β : Type} {first second : Parse (Option α)} {next last : Option α → Parse β}
    (firstExtends : Extends first second) (noneSame : next none = last none)
    (someExtends : ∀ value, Extends (next (some value)) (last (some value))) :
    Extends (first >>= next) (second >>= last) :=
  firstExtends.bind fun value =>
    match value with
    | none => noneSame ▸ .refl _
    | some value => someExtends value

section

variable (selfExtends : Extends self other)

include selfExtends

theorem unop_extends : Extends (unop self) (unop other) := by
  refine .bind (.refl _) fun c => ?_
  match unopType c with
  | none => exact .refl _
  | some type => exact .bind (.refl _) fun _ => selfExtends.bind fun _ => .refl _

theorem paren_extends : Extends (paren self) (paren other) :=
  .bind (.refl _) fun _ => .ite (fun _ => .bind (.refl _) fun _ => selfExtends.bind fun _ => .refl _) fun _ => .refl _

theorem arithmTerm_extends : Extends (arithmTerm self) (arithmTerm other) := by
  refine (paren_extends selfExtends).bind fun expr => ?_
  match expr with
  | some expr => exact .refl _
  | none => exact (unop_extends selfExtends).bind fun _ => .refl _

theorem factorLoop_extends (enough : fuel ≤ largerFuel) (expr : ArithmExpr) :
    Extends (factorLoop self fuel expr) (factorLoop other largerFuel expr) := by
  induction fuel generalizing largerFuel expr with
  | zero => exact .stop _ _
  | succ fuel ih =>
      obtain ⟨larger, rfl⟩ : ∃ less, largerFuel = less + 1 := ⟨largerFuel - 1, by omega⟩
      refine .bind (.refl _) fun _ => bindOption_extends (.refl _) rfl fun _ => .bind (.refl _) fun _ => ?_
      exact bindOption_extends (arithmTerm_extends selfExtends) rfl fun _ => ih (by omega) _

theorem factor_extends (enough : bound ≤ largerBound) : Extends (factor bound self) (factor largerBound other) :=
  bindOption_extends (arithmTerm_extends selfExtends) rfl fun _ => factorLoop_extends selfExtends enough _

theorem addendLoop_extends (bounded : bound ≤ largerBound) (enough : fuel ≤ largerFuel) (expr : ArithmExpr) :
    Extends (addendLoop bound self fuel expr) (addendLoop largerBound other largerFuel expr) := by
  induction fuel generalizing largerFuel expr with
  | zero => exact .stop _ _
  | succ fuel ih =>
      obtain ⟨larger, rfl⟩ : ∃ less, largerFuel = less + 1 := ⟨largerFuel - 1, by omega⟩
      refine bindOption_extends (.refl _) rfl fun _ => .bind (.refl _) fun _ => ?_
      exact bindOption_extends (factor_extends selfExtends bounded) rfl fun _ => ih (by omega) _

omit selfExtends in
theorem rightAssociative_extends {operand larger : Parse (Option ArithmExpr)} {skip : Parse Unit}
    {ops : List (Parse Bool × ArithmBinopType)} (operandExtends : Extends operand larger) (enough : fuel ≤ largerFuel) :
    Extends (rightAssociative operand ops skip fuel) (rightAssociative larger ops skip largerFuel) := by
  induction fuel generalizing largerFuel with
  | zero => exact .stop _ _
  | succ fuel ih =>
      obtain ⟨less, rfl⟩ : ∃ less, largerFuel = less + 1 := ⟨largerFuel - 1, by omega⟩
      refine bindOption_extends operandExtends rfl fun _ => bindOption_extends (.refl _) rfl fun _ => ?_
      exact .bind (.refl _) fun _ => (ih (by omega)).bind fun _ => .refl _

theorem levelParse_extends (enough : bound ≤ largerBound) (level : Nat) :
    Extends (levelParse bound self level) (levelParse largerBound other level) := by
  induction level with
  | zero => exact arithmTerm_extends selfExtends
  | succ level ih =>
      match level with
      | 0 => exact factor_extends selfExtends enough
      | 1 => exact bindOption_extends ih rfl fun _ => addendLoop_extends selfExtends enough enough _
      | level + 2 => exact rightAssociative_extends ih enough

theorem ternary_extends (bounded : bound ≤ largerBound) (enough : fuel ≤ largerFuel) :
    Extends (ternary bound self fuel) (ternary largerBound other largerFuel) := by
  induction fuel generalizing largerFuel with
  | zero => exact .stop _ _
  | succ fuel ih =>
      obtain ⟨larger, rfl⟩ : ∃ less, largerFuel = less + 1 := ⟨largerFuel - 1, by omega⟩
      refine bindOption_extends (levelParse_extends selfExtends bounded 10) rfl fun _ => .bind (.refl _) fun _ => ?_
      refine .ite (fun _ => bindOption_extends (ih (by omega)) rfl fun _ => .bind (.refl _) fun _ => ?_)
        fun _ => .refl _
      exact .ite (fun _ => bindOption_extends (ih (by omega)) rfl fun _ => .refl _) fun _ => .refl _

theorem assignment_extends : Extends (assignment self) (assignment other) := by
  refine .bind (.refl _) fun _ => .ite (fun _ => .refl _) fun _ => .bind (.refl _) fun buf => ?_
  split
  · exact .refl _
  · exact .bind (.refl _) fun _ => .bind (.refl _) fun _ => selfExtends.bind fun _ => .refl _

end

theorem arithmExpr_extends (enough : fuel ≤ largerFuel) : Extends (arithmExpr fuel) (arithmExpr largerFuel) := by
  induction fuel generalizing largerFuel with
  | zero => exact .stop _ _
  | succ fuel ih =>
      obtain ⟨larger, rfl⟩ : ∃ less, largerFuel = less + 1 := ⟨largerFuel - 1, by omega⟩
      have below : fuel ≤ larger := by omega
      refine (assignment_extends (ih below)).bind fun expr => ?_
      match expr with
      | some expr => exact .refl _
      | none => exact ternary_extends (ih below) below below

theorem mrshParseArithmExpr_extends (enough : fuel ≤ largerFuel) :
    Extends (mrshParseArithmExpr fuel) (mrshParseArithmExpr largerFuel) :=
  .bind (.refl _) fun _ => (arithmExpr_extends enough).bind fun _ => .refl _

end Mrsh
