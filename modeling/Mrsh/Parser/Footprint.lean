import Mrsh.Parser.Program

namespace Mrsh

open Mrsh.Data

/-! # What reading changes

The functions that read tokens change the text that is left, the cached symbol, the
error and the flag for continuation lines. A relation that allows these changes holds
across all of them, so that what else they leave alone is said by its choice.
-/

structure AllowsReading (relation : Parser → Parser → Prop) : Prop where
  refl : Std.Refl relation
  trans : IsTrans Parser relation
  readChar : ∀ (parser : Parser) c buf, parser.buf = c :: buf →
    relation parser { parser with buf, pos := parser.pos.advance c, continuationLine := false }
  symbol : ∀ (parser : Parser) hasSym sym, relation parser { parser with hasSym, sym }
  continuation : ∀ parser : Parser, relation parser { parser with continuationLine := true }
  error : ∀ (parser : Parser) error, parser.error = none →
    relation parser { parser with error := some error, hereDocuments := [] }

variable {α : Type} {relation : Parser → Parser → Prop} (allows : AllowsReading relation)

namespace AllowsReading

include allows

theorem pure (value : α) : Run.Respects relation (pure value : Parse α) :=
  have := allows.refl
  .pure value

theorem stop (reason : Stop) : Run.Respects relation (Run.stop reason : Parse α) :=
  have := allows.refl
  .stop reason

theorem gets (read : Parser → α) : Run.Respects relation (Run.gets read : Parse α) :=
  have := allows.refl
  .gets read

theorem bind {β : Type} {first : Parse α} {next : α → Parse β} (firstRespects : Run.Respects relation first)
    (nextRespects : ∀ value, Run.Respects relation (next value)) : Run.Respects relation (first >>= next) :=
  have := allows.trans
  .bind firstRespects nextRespects

theorem bindOption {β : Type} {first : Parse (Option α)} {next : Option α → Parse β}
    (firstRespects : Run.Respects relation first) (noneRespects : Run.Respects relation (next none))
    (someRespects : ∀ value, Run.Respects relation (next (some value))) : Run.Respects relation (first >>= next) :=
  allows.bind firstRespects fun value =>
    match value with
    | none => noneRespects
    | some value => someRespects value

end AllowsReading

include allows

/-! ## Characters and symbols -/

theorem parserReadChar_respects : Run.Respects relation parserReadChar := by
  intro parser
  have same := allows.refl.refl parser
  cases buf : parser.buf with
  | nil => simpa [parserReadChar, buf] using same
  | cons c rest =>
      by_cases nul : c = '\x00'
      · simpa [parserReadChar, buf, nul] using same
      · simpa [parserReadChar, buf, nul] using allows.readChar parser c rest buf

theorem parserRead_respects (size : Nat) : Run.Respects relation (parserRead size) := by
  induction size with
  | zero => exact allows.pure _
  | succ size ih =>
      exact allows.bind (parserReadChar_respects allows) fun _ => allows.bind ih fun _ => allows.pure _

theorem assert_respects (condition : Bool) : Run.Respects relation (assert condition) :=
  .ite (fun _ => allows.pure _) fun _ => allows.stop _

theorem readContinuationLine_respects : Run.Respects relation readContinuationLine :=
  allows.bind (parserReadChar_respects allows) fun _ => allows.bind (assert_respects allows _) fun _ =>
    .modify allows.continuation

theorem parserSetError_respects (msg : Str) : Run.Respects relation (parserSetError msg) := by
  refine .modify fun parser => ?_
  cases failed : parser.error with
  | none => exact allows.error parser _ failed
  | some error => exact allows.refl.refl parser

theorem skipComment_respects (fuel : Nat) : Run.Respects relation (skipComment fuel) := by
  induction fuel with
  | zero => exact allows.stop _
  | succ fuel ih =>
      refine allows.bind (allows.gets _) fun c => .ite (fun _ => allows.pure _) fun _ => ?_
      exact allows.bind (parserReadChar_respects allows) fun _ => ih

theorem setSymbol_respects (sym : SymbolName) : Run.Respects relation (setSymbol sym) :=
  .modify fun parser => allows.symbol parser parser.hasSym sym

theorem nextSymbolWithin_respects (fuel : Nat) : Run.Respects relation (nextSymbolWithin fuel) := by
  induction fuel with
  | zero => exact allows.stop _
  | succ fuel ih =>
      have marks : Run.Respects relation (Run.modify fun parser => { parser with hasSym := true } : Parse Unit) :=
        .modify fun parser => allows.symbol parser true parser.sym
      refine allows.bind marks fun _ => allows.bind (allows.gets _) fun c => ?_
      refine .ite (fun _ => setSymbol_respects allows _) fun _ => .ite (fun _ => setSymbol_respects allows _)
        fun _ => ?_
      refine allows.bind (allows.gets _) fun buf => ?_
      generalize (if isOperatorStart c = true then operatorAt buf else none) = operator
      match operator with
      | some name => exact setSymbol_respects allows name
      | none =>
          refine .ite (fun _ => ?_) fun _ => .ite (fun _ => ?_) fun _ => setSymbol_respects allows _
          · exact allows.bind (parserReadChar_respects allows) fun _ => ih
          · exact allows.bind (skipComment_respects allows _) fun _ => ih

theorem nextSymbol_respects : Run.Respects relation nextSymbol :=
  allows.bind (allows.gets _) fun _ => nextSymbolWithin_respects allows _

theorem getSymbol_respects : Run.Respects relation getSymbol :=
  allows.bind (allows.gets _) fun _ =>
    .ite (fun _ => allows.gets _) fun _ => allows.bind (nextSymbol_respects allows) fun _ => allows.gets _

theorem consumeSymbol_respects : Run.Respects relation consumeSymbol :=
  .modify fun parser => allows.symbol parser false parser.sym

theorem symbol_respects (sym : SymbolName) : Run.Respects relation (symbol sym) :=
  allows.bind (getSymbol_respects allows) fun _ => allows.pure _

theorem newline_respects : Run.Respects relation newline := by
  refine allows.bind (symbol_respects allows _) fun _ => .ite (fun _ => ?_) fun _ => allows.pure _
  refine allows.bind (parserReadChar_respects allows) fun _ => allows.bind (assert_respects allows _) fun _ => ?_
  exact allows.bind (consumeSymbol_respects allows) fun _ => allows.pure _

theorem linebreakWithin_respects (fuel : Nat) : Run.Respects relation (linebreakWithin fuel) := by
  induction fuel with
  | zero => exact allows.stop _
  | succ fuel ih => exact allows.bind (newline_respects allows) fun _ => .ite (fun _ => ih) fun _ => allows.pure _

theorem linebreak_respects : Run.Respects relation linebreak :=
  allows.bind (allows.gets _) fun _ => linebreakWithin_respects allows _

theorem newlineList_respects : Run.Respects relation newlineList :=
  allows.bind (newline_respects allows) fun _ =>
    .ite (fun _ => allows.bind (linebreak_respects allows) fun _ => allows.pure _) fun _ => allows.pure _

/-! ## Tokens -/

theorem peekName_respects (inBraces : Bool) : Run.Respects relation (peekName inBraces) :=
  allows.bind (symbol_respects allows _) fun _ => .ite (fun _ => allows.gets _) fun _ => allows.pure _

theorem peekWord_respects (stop : Char) : Run.Respects relation (peekWord stop) :=
  allows.bind (symbol_respects allows _) fun _ => .ite (fun _ => allows.gets _) fun _ => allows.pure _

theorem token_consumed_respects (begin : Position) : Run.Respects relation (token.consumed begin) :=
  allows.bind (allows.gets _) fun _ => allows.bind (consumeSymbol_respects allows) fun _ => allows.pure _

theorem token_wholeWord_respects (str : Str) (begin : Position) :
    Run.Respects relation (token.wholeWord str begin) := by
  refine allows.bind (peekWord_respects allows _) fun wordLen => allows.bind (allows.gets _) fun buf => ?_
  refine .ite (fun _ => ?_) fun _ => allows.pure _
  exact allows.bind (parserRead_respects allows _) fun _ => token_consumed_respects allows _

theorem token_respects (str : Str) : Run.Respects relation (token str) := by
  refine allows.bind (symbol_respects allows _) fun _ => .ite (fun _ => ?_) fun _ => allows.pure _
  refine allows.bind (allows.gets _) fun begin => ?_
  match str with
  | [] => exact token_wholeWord_respects allows _ _
  | [c] =>
      refine .ite (fun _ => token_wholeWord_respects allows _ _) fun _ => allows.bind (allows.gets _) fun next => ?_
      refine .ite (fun _ => ?_) fun _ => allows.pure _
      exact allows.bind (parserReadChar_respects allows) fun _ => token_consumed_respects allows _
  | _ :: _ :: _ => exact token_wholeWord_respects allows _ _

theorem tokenOr_respects (str msg : Str) : Run.Respects relation (tokenOr str msg) := by
  refine allows.bindOption (token_respects allows _) ?_ fun _ => allows.pure _
  exact allows.bind (parserSetError_respects allows _) fun _ => allows.pure _

theorem expectToken_respects (str : Str) : Run.Respects relation (expectToken str) := tokenOr_respects allows str _

theorem readToken_respects (len : Nat) : Run.Respects relation (readToken len) := by
  refine allows.bind (symbol_respects allows _) fun _ => .ite (fun _ => ?_) fun _ => allows.pure _
  refine allows.bind (allows.gets _) fun _ => allows.bind (parserRead_respects allows _) fun _ => ?_
  exact allows.bind (allows.gets _) fun _ => allows.bind (consumeSymbol_respects allows) fun _ => allows.pure _

theorem operator_respects (sym : SymbolName) : Run.Respects relation (operator sym) := by
  refine allows.bind (symbol_respects allows _) fun _ => .ite (fun _ => ?_) fun _ => allows.pure _
  refine allows.bind (allows.gets _) fun begin => ?_
  match operatorStr sym with
  | none => exact allows.stop _
  | some str =>
      refine allows.bind (parserRead_respects allows _) fun _ => allows.bind (assert_respects allows _) fun _ => ?_
      exact allows.bind (allows.gets _) fun _ => allows.bind (consumeSymbol_respects allows) fun _ => allows.pure _

theorem separatorOp_respects : Run.Respects relation separatorOp := by
  refine allows.bindOption (token_respects allows _) ?_ fun _ => allows.pure _
  exact allows.bindOption (token_respects allows _) (allows.pure _) fun _ => allows.pure _

theorem separator_respects : Run.Respects relation separator := by
  refine allows.bindOption (separatorOp_respects allows) ?_ fun _ =>
    allows.bind (linebreak_respects allows) fun _ => allows.pure _
  exact allows.bind (newlineList_respects allows) fun _ => .ite (fun _ => allows.pure _) fun _ => allows.pure _

theorem sequentialSep_respects : Run.Respects relation sequentialSep := by
  refine allows.bindOption (token_respects allows _) (newlineList_respects allows) fun _ => ?_
  exact allows.bind (linebreak_respects allows) fun _ => allows.pure _

theorem ioHereOp_respects : Run.Respects relation ioHereOp := by
  refine allows.bindOption (operator_respects allows _) ?_ fun _ => allows.pure _
  exact allows.bindOption (operator_respects allows _) (allows.pure _) fun _ => allows.pure _

theorem firstOp_respects (alternatives : List (Parse (Option Range) × IoRedirectOp))
    (respect : ∀ alternative ∈ alternatives, Run.Respects relation alternative.1) :
    Run.Respects relation (firstOp alternatives) := by
  induction alternatives with
  | nil => exact allows.pure _
  | cons alternative rest ih =>
      refine allows.bindOption (respect alternative List.mem_cons_self) (ih fun alternative member => ?_) fun _ =>
        allows.pure _
      exact respect alternative (List.mem_cons_of_mem _ member)

theorem ioRedirectOp_respects : Run.Respects relation ioRedirectOp := by
  refine firstOp_respects allows _ ?_
  simp only [List.forall_mem_cons, List.not_mem_nil, false_imp_iff, implies_true, and_true]
  exact ⟨token_respects allows _, token_respects allows _, operator_respects allows _, operator_respects allows _,
    operator_respects allows _, operator_respects allows _, operator_respects allows _⟩

theorem ioNumber_respects : Run.Respects relation ioNumber := by
  refine allows.bind (symbol_respects allows _) fun _ => .ite (fun _ => ?_) fun _ => allows.pure _
  refine allows.bind (allows.gets _) fun c => allows.bind (allows.gets _) fun next => ?_
  refine .ite (fun _ => ?_) fun _ => allows.pure _
  refine allows.bind (parserReadChar_respects allows) fun _ => ?_
  exact allows.bind (consumeSymbol_respects allows) fun _ => allows.pure _

theorem loopType_respects : Run.Respects relation loopType := by
  refine allows.bindOption (token_respects allows _) ?_ fun _ => allows.pure _
  exact allows.bindOption (token_respects allows _) (allows.pure _) fun _ => allows.pure _

theorem binopType_respects : Run.Respects relation binopType := by
  refine allows.bindOption (operator_respects allows _) ?_ fun _ => allows.pure _
  exact allows.bindOption (operator_respects allows _) (allows.pure _) fun _ => allows.pure _

theorem unspecifiedWord_respects : Run.Respects relation unspecifiedWord := by
  refine allows.bind (peekWord_respects allows _) fun wordLen => .ite (fun _ => allows.pure _) fun _ => ?_
  refine allows.bind (allows.gets _) fun buf => .ite (fun _ => ?_) fun _ => ?_
  · exact allows.bind (parserSetError_respects allows _) fun _ => allows.pure _
  refine allows.bind (peekName_respects allows _) fun nameLen => allows.bind (allows.gets _) fun next => ?_
  exact .ite (fun _ => allows.bind (parserSetError_respects allows _) fun _ => allows.pure _) fun _ => allows.pure _

end Mrsh
