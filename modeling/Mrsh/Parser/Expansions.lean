import Mrsh.Parser.Word

namespace Mrsh

open Mrsh.Data

/-! # Expansions

What follows a dollar or a back quote is read as a word that stands for a value,
and never as a string or a list.
-/

def isExpansion : Word → Bool
  | .parameter _ => true
  | .command _ _ _ => true
  | .arithmetic _ => true
  | _ => false

theorem mrshWordStr_expansion {word : Word} (expansion : isExpansion word = true) : mrshWordStr word = none := by
  cases word with
  | parameter _ => rfl
  | command _ _ _ => rfl
  | arithmetic _ => rfl
  | _ => cases expansion

variable {self : Productions}

abbrev ExpansionOnly (child : Option Word) : Prop := ∀ word ∈ child, isExpansion word = true

theorem noExpansion : Run.Returns ExpansionOnly (pure none : Parse (Option Word)) :=
  .pure fun _ member => by cases member

theorem failed_expansion (msg : Str) :
    Run.Returns ExpansionOnly (do parserSetError msg; pure none : Parse (Option Word)) :=
  .bind fun _ => noExpansion

theorem some_expansion {word : Word} (expansion : isExpansion word = true) :
    Run.Returns ExpansionOnly (pure (some word) : Parse (Option Word)) :=
  .pure fun _ member => by cases member; exact expansion

theorem expectParameterExpression_expansion (dollarPos : Position) :
    Run.Returns ExpansionOnly (expectParameterExpression self dollarPos) := by
  refine .bind fun lbracePos => .bind fun c => .bind fun _ => .bind fun leading => .bind fun opBegin => ?_
  refine .ite (fun _ => .bind fun _ => .bind fun _ => .bind fun operation => ?_) fun _ => .bind fun operation => ?_
  all_goals
    refine .bind fun nameLen => .ite (fun _ => failed_expansion _) fun _ => .bind fun name => ?_
    match name with
    | none => exact noExpansion
    | some (name, nameRange) =>
        refine .bind fun operation => ?_
        match operation with
        | none => exact noExpansion
        | some (op, colon, opRange, arg) =>
            refine .bind fun rbracePos => .bind fun c => .ite (fun _ => failed_expansion _) fun _ => ?_
            exact some_expansion rfl

theorem expectWordCommand_expansion : Run.Returns ExpansionOnly (expectWordCommand self) := by
  refine .bind fun c => .bind fun _ => .bind fun isToken => .bind fun _ => .bind fun _ => .bind fun aliasFunc => ?_
  refine .bind fun _ => .bind fun prog => .bind fun _ => .bind fun error => ?_
  match error, prog with
  | some _, _ => exact noExpansion
  | none, none => exact failed_expansion _
  | none, some prog =>
      refine .bind fun closing => ?_
      match closing with
      | none => exact noExpansion
      | some _ => exact some_expansion rfl

theorem expectWordArithmetic_expansion : Run.Returns ExpansionOnly (expectWordArithmetic self) := by
  refine .bind fun c => .bind fun _ => .bind fun c => .bind fun _ => .bind fun _ => .bind fun body => ?_
  match body with
  | none =>
      refine .bind fun error => ?_
      match error with
      | some _ => exact noExpansion
      | none => exact failed_expansion _
  | some body =>
      refine .bind fun first => ?_
      match first with
      | none => exact noExpansion
      | some _ =>
          refine .bind fun second => ?_
          match second with
          | none => exact noExpansion
          | some _ => exact some_expansion rfl

theorem expectDollar_expansion : Run.Returns ExpansionOnly (expectDollar self) := by
  refine .bind fun dollarPos => .bind fun c => .bind fun _ => .bind fun c => ?_
  refine .ite (fun _ => expectParameterExpression_expansion dollarPos) fun _ => .ite (fun _ => .bind fun next => ?_)
    fun _ => ?_
  · exact .ite (fun _ => expectWordArithmetic_expansion) fun _ => expectWordCommand_expansion
  refine .bind fun nameLen => .ite (fun _ => failed_expansion _) fun _ => .bind fun name => ?_
  match name with
  | none => exact noExpansion
  | some (name, nameRange) => exact some_expansion rfl

theorem backQuotes_expansion : Run.Returns ExpansionOnly (backQuotes self) := by
  refine .bind fun begin => .bind fun c => .bind fun _ => .bind fun fuel => .bind fun text => ?_
  match text with
  | none => exact noExpansion
  | some buf =>
      refine .bind fun parsed => ?_
      match parsed with
      | (_, some _) => exact failed_expansion _
      | (prog, none) => exact .bind fun finish => some_expansion rfl

end Mrsh
