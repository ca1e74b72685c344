import Mrsh.Parser.Lines
import Mrsh.Parser.ProgramTrees

namespace Mrsh

open Mrsh.Data

/-! # What parsing changes

Beyond the tokens that are read, the parser numbers nodes, counts parentheses and keeps the
here-documents that are pending. A relation that allows this holds across all functions of
the parser, once it does across those that read other texts or replace aliases.
-/

/-- The changes that also concern neither the text nor the position in it nor the aliases nor the stored lines. -/
structure AllowsParsing (relation : Parser → Parser → Prop) : Prop extends AllowsReading relation where
  notes : ∀ before after : Parser, after.buf = before.buf → after.pos = before.pos →
    after.aliasFunc = before.aliasFunc → after.bodies = before.bodies → relation before after

namespace AllowsParsing

variable {α β : Type} {relation : Parser → Parser → Prop} (allows : AllowsParsing relation)
include allows

theorem reading : AllowsReading relation := allows.toAllowsReading

theorem pure (value : α) : Run.Keeps relation (pure value : Parse α) := (allows.reading.pure value).keeps

theorem stop (reason : Stop) : Run.Keeps relation (Run.stop reason : Parse α) := (allows.reading.stop reason).keeps

theorem gets (read : Parser → α) : Run.Keeps relation (Run.gets read : Parse α) := (allows.reading.gets read).keeps

theorem bind {first : Parse α} {next : α → Parse β} (firstKeeps : Run.Keeps relation first)
    (nextKeeps : ∀ value, Run.Keeps relation (next value)) : Run.Keeps relation (first >>= next) :=
  have := allows.trans
  .bind firstKeeps nextKeeps

theorem bindOption {first : Parse (Option α)} {next : Option α → Parse β} (firstKeeps : Run.Keeps relation first)
    (noneKeeps : Run.Keeps relation (next none)) (someKeeps : ∀ value, Run.Keeps relation (next (some value))) :
    Run.Keeps relation (first >>= next) :=
  allows.bind firstKeeps fun value =>
    match value with
    | none => noneKeeps
    | some value => someKeeps value

theorem looks {read : Parser → α} {next : α → Parse β} (nextKeeps : ∀ value, Run.Keeps relation (next value)) :
    Run.Keeps relation (Run.gets read >>= next) := allows.bind (allows.gets read) nextKeeps

theorem reads {first : Parse α} {next : α → Parse β}
    (firstRespects : AllowsReading relation → Run.Respects relation first)
    (nextKeeps : ∀ value, Run.Keeps relation (next value)) : Run.Keeps relation (first >>= next) :=
  allows.bind (firstRespects allows.reading).keeps nextKeeps

theorem readsOption {first : Parse (Option α)} {next : Option α → Parse β}
    (firstRespects : AllowsReading relation → Run.Respects relation first) (noneKeeps : Run.Keeps relation (next none))
    (someKeeps : ∀ value, Run.Keeps relation (next (some value))) : Run.Keeps relation (first >>= next) :=
  allows.bindOption (firstRespects allows.reading).keeps noneKeeps someKeeps

theorem modify {change : Parser → Parser} (kept : ∀ parser, (change parser).buf = parser.buf ∧
    (change parser).pos = parser.pos ∧ (change parser).aliasFunc = parser.aliasFunc ∧
    (change parser).bodies = parser.bodies) : Run.Keeps relation (Run.modify change : Parse Unit) :=
  .modify fun parser => allows.notes _ _ (kept parser).1 (kept parser).2.1 (kept parser).2.2.1 (kept parser).2.2.2

end AllowsParsing

/-- The recursive calls of the functions for words. -/
structure WordCalls (relation : Parser → Parser → Prop) (functions : Productions) : Prop where
  word : ∀ stop, Run.Keeps relation (functions.word stop)
  arithmeticWord : ∀ stop, Run.Keeps relation (functions.arithmeticWord stop)
  expectWordCommand : Run.Keeps relation (expectWordCommand functions)
  backQuotes : Run.Keeps relation (backQuotes functions)

/-- The other recursive calls, and what a relation says about aliases and the lines of here-documents. -/
structure Calls (relation : Parser → Parser → Prop) (functions : Productions) : Prop
    extends WordCalls relation functions where
  andOr : Run.Keeps relation functions.andOr
  elsePart : Run.Keeps relation functions.elsePart
  compoundCommand : Run.Keeps relation functions.compoundCommand
  applyAliases : Run.Keeps relation (applyAliases functions)
  hereDocumentLines : ∀ redir expandLines delim fuel,
    Run.Keeps relation (hereDocumentLines functions redir expandLines delim fuel)

variable {α β : Type} {relation : Parser → Parser → Prop} {self : Productions} (allows : AllowsParsing relation)
include allows

theorem failed_keeps (msg : Str) : Run.Keeps relation (do parserSetError msg; pure none : Parse (Option α)) :=
  allows.reads (parserSetError_respects · msg) fun _ => allows.pure _

theorem map_keeps {first : Parse (Option α)} {change : α → β} (firstKeeps : Run.Keeps relation first) :
    Run.Keeps relation (do pure ((← first).map change) : Parse (Option β)) :=
  allows.bind firstKeeps fun _ => allows.pure _

/-! ## Words -/

theorem nestedWord_keeps (builder : WordBuilder) {child : Parse (Option Word)}
    {continue_ : WordBuilder → Parse (Option Word)} (childKeeps : Run.Keeps relation child)
    (rest : ∀ builder, Run.Keeps relation (continue_ builder)) :
    Run.Keeps relation (nestedWord builder child continue_) :=
  allows.looks fun _ => allows.bindOption childKeeps (allows.pure _) fun _ => rest _

theorem finishWord_keeps (builder : WordBuilder) : Run.Keeps relation (finishWord builder) :=
  allows.looks fun _ => allows.reads consumeSymbol_respects fun _ => allows.pure _

theorem singleQuotesLoop_keeps (begin : Position) (fuel : Nat) (buf : Str) :
    Run.Keeps relation (singleQuotesLoop begin fuel buf) := by
  induction fuel generalizing buf with
  | zero => exact allows.stop _
  | succ fuel ih =>
      refine allows.looks fun c => .ite (fun _ => failed_keeps allows _) fun _ => ?_
      refine .ite (fun _ => ?_) fun _ => ?_
      · exact allows.reads parserReadChar_respects fun _ => allows.looks fun _ =>
          allows.pure _
      exact .ite (fun _ => allows.reads readContinuationLine_respects fun _ => ih _) fun _ =>
        allows.reads parserReadChar_respects fun _ => ih _

theorem singleQuotes_keeps : Run.Keeps relation singleQuotes :=
  allows.looks fun _ => allows.reads parserReadChar_respects fun _ =>
    allows.reads (assert_respects · _) fun _ => allows.looks fun _ =>
      singleQuotesLoop_keeps allows _ _ _

theorem readArithmeticChar_keeps (builder : WordBuilder) (c : Char) {continue_ : WordBuilder → Parse (Option Word)}
    (rest : ∀ builder, Run.Keeps relation (continue_ builder)) :
    Run.Keeps relation (readArithmeticChar builder c continue_) := by
  refine allows.bind (countParen_respects allows.reading (fun _ _ => allows.notes _ _ rfl rfl rfl rfl) c).keeps
    fun unmatched => ?_
  exact .ite (fun _ => failed_keeps allows _) fun _ => allows.reads parserReadChar_respects fun _ => rest _

theorem newAddress_keeps : Run.Keeps relation newAddress :=
  allows.looks fun _ => allows.bind (allows.modify fun _ => ⟨rfl, rfl, rfl, rfl⟩) fun _ =>
    allows.pure _

theorem wordListLoop_keeps (stop : Char) {f : Char → Parse (Option Word)}
    (fKeeps : Run.Keeps relation (f stop)) (fuel : Nat) (children : List Word) :
    Run.Keeps relation (wordListLoop stop f fuel children) := by
  induction fuel generalizing children with
  | zero => exact allows.stop _
  | succ fuel ih =>
      refine allows.looks fun c => .ite (fun _ => allows.pure _) fun _ => ?_
      refine allows.bindOption fKeeps (allows.pure _) fun child => allows.looks fun begin => ?_
      refine allows.looks fun _ => allows.reads (readBlanks_respects · _ _) fun buf => ?_
      exact .ite (fun _ => allows.pure _) fun _ => allows.looks fun _ => ih _

theorem wordList_keeps (stop : Char) {f : Char → Parse (Option Word)} (fKeeps : Run.Keeps relation (f stop)) :
    Run.Keeps relation (wordList stop f) := by
  refine allows.looks fun fuel => allows.bind (wordListLoop_keeps allows stop fKeeps fuel [])
    fun children => ?_
  rcases children with _ | ⟨first, _ | ⟨second, rest⟩⟩ <;> exact allows.pure _

theorem repeatPart_keeps {part : α → Parse (Option α)} (partKeeps : ∀ value, Run.Keeps relation (part value))
    (fuel : Nat) (value : α) : Run.Keeps relation (repeatPart part fuel value) := by
  induction fuel generalizing value with
  | zero => exact allows.stop _
  | succ fuel ih => exact allows.bindOption (partKeeps value) (allows.pure _) fun _ => ih _

theorem collect_keeps {parse : Parse (Option α)} (parseKeeps : Run.Keeps relation parse) (fuel : Nat)
    (values : List α) : Run.Keeps relation (collect parse fuel values) := by
  induction fuel generalizing values with
  | zero => exact allows.stop _
  | succ fuel ih => exact allows.bindOption parseKeeps (allows.pure _) fun _ => ih _

theorem firstCommand_keeps (alternatives : List (Parse (Option Command)))
    (areKept : ∀ alternative ∈ alternatives, Run.Keeps relation alternative) :
    Run.Keeps relation (firstCommand alternatives) := by
  induction alternatives with
  | nil => exact allows.pure _
  | cons alternative rest ih =>
      refine allows.bindOption (areKept alternative List.mem_cons_self) ?_ fun _ => allows.pure _
      refine allows.bindOption (allows.gets _) (ih fun alternative member => ?_) fun _ => allows.pure _
      exact areKept alternative (List.mem_cons_of_mem _ member)

theorem hereDocumentNewline_keeps : Run.Keeps relation hereDocumentNewline :=
  allows.reads newline_respects fun _ => .ite (fun _ => allows.pure _) fun _ =>
    allows.reads (parserSetError_respects · _) fun _ => allows.pure _

/-! ## Expansions -/

section

variable (calls : WordCalls relation self)
include calls


theorem parameterOperation_keeps (op : ParameterOp) (opRange : Range) :
    Run.Keeps relation (parameterOperation self op opRange) := by
  refine allows.looks fun c => .ite (fun _ => ?_) fun _ => allows.pure _
  refine allows.looks fun begin => allows.bindOption (expectParameterOp_respects allows.reading).keeps
    (allows.pure _) ?_
  exact fun operation => allows.looks fun finish =>
    allows.bind (wordList_keeps allows '}' (calls.word '}')) fun arg => allows.pure _

theorem expectParameterExpression_keeps (dollarPos : Position) :
    Run.Keeps relation (expectParameterExpression self dollarPos) := by
  refine allows.looks fun lbracePos => allows.reads parserReadChar_respects fun c => ?_
  refine allows.reads (assert_respects · _) fun _ => allows.looks fun leading => ?_
  refine allows.looks fun opBegin => ?_
  refine .ite (fun _ => allows.reads parserReadChar_respects fun _ =>
    allows.looks fun _ =>
    allows.bind (allows.pure _) fun operation => ?_) fun _ => allows.bind (allows.pure _) fun operation => ?_
  all_goals
    refine allows.reads (peekName_respects · _) fun nameLen => .ite (fun _ =>
      failed_keeps allows _) fun _ => ?_
    refine allows.readsOption (readToken_respects · _) (allows.pure _) fun name => ?_
    refine allows.bindOption (parameterOperation_keeps allows calls _ _) (allows.pure _) fun operation => ?_
    refine allows.looks fun rbracePos => allows.reads parserReadChar_respects fun c => ?_
    exact .ite (fun _ => failed_keeps allows _) fun _ => allows.pure _

theorem expectWordArithmetic_keeps : Run.Keeps relation (expectWordArithmetic self) := by
  refine allows.reads parserReadChar_respects fun c =>
    allows.reads (assert_respects · _) fun _ => ?_
  refine allows.reads parserReadChar_respects fun c =>
    allows.reads (assert_respects · _) fun _ => ?_
  refine allows.bind (allows.modify fun _ => ⟨rfl, rfl, rfl, rfl⟩) fun _ => ?_
  refine allows.bindOption (wordList_keeps allows '\x00' (calls.arithmeticWord '\x00')) ?_ fun body => ?_
  · exact allows.bindOption (allows.gets _) (failed_keeps allows _) fun _ => allows.pure _
  · refine allows.readsOption (expectToken_respects · _) (allows.pure _) fun _ => ?_
    exact allows.readsOption (expectToken_respects · _) (allows.pure _) fun _ => allows.pure _

theorem expectDollar_keeps : Run.Keeps relation (expectDollar self) := by
  refine allows.looks fun dollarPos => allows.reads parserReadChar_respects fun c => ?_
  refine allows.reads (assert_respects · _) fun _ => allows.looks fun c => ?_
  refine .ite (fun _ => expectParameterExpression_keeps allows calls _) fun _ => .ite (fun _ => ?_) fun _ => ?_
  · refine allows.looks fun next => ?_
    exact .ite (fun _ => expectWordArithmetic_keeps allows calls) fun _ => calls.expectWordCommand
  refine allows.reads (peekName_respects · _) fun nameLen => .ite (fun _ =>
    failed_keeps allows _) fun _ => ?_
  exact allows.readsOption (readToken_respects · _) (allows.pure _) fun _ => allows.pure _

theorem doubleQuotesLoop_keeps (lquotePos : Position) (fuel : Nat) (builder : WordBuilder) :
    Run.Keeps relation (doubleQuotesLoop self lquotePos fuel builder) := by
  induction fuel generalizing builder with
  | zero => exact allows.stop _
  | succ fuel ih =>
      refine allows.looks fun pos => allows.looks fun c => ?_
      refine .ite (fun _ => failed_keeps allows _) fun _ => .ite (fun _ => ?_) fun _ => ?_
      · exact allows.reads parserReadChar_respects fun _ => allows.pure _
      refine .ite (fun _ => nestedWord_keeps allows _ (expectDollar_keeps allows calls) fun _ => ih _) fun _ => ?_
      refine .ite (fun _ => nestedWord_keeps allows _ calls.backQuotes fun _ => ih _) fun _ => ?_
      refine allows.looks fun next => .ite (fun _ => ?_) fun _ => .ite (fun _ => ?_) fun _ => ?_
      · exact allows.reads parserReadChar_respects fun _ =>
          allows.reads readContinuationLine_respects fun _ => ih _
      · refine allows.reads parserReadChar_respects fun _ => ?_
        exact allows.reads parserReadChar_respects fun _ => ih _
      · exact allows.reads parserReadChar_respects fun _ => ih _

theorem doubleQuotes_keeps : Run.Keeps relation (doubleQuotes self) :=
  allows.looks fun _ => allows.reads parserReadChar_respects fun _ =>
    allows.reads (assert_respects · _) fun _ => allows.looks fun _ =>
      doubleQuotesLoop_keeps allows calls _ _ _

theorem wordLoop_keeps (stop : Char) (fuel : Nat) (builder : WordBuilder) :
    Run.Keeps relation (wordLoop self stop fuel builder) := by
  induction fuel generalizing builder with
  | zero => exact allows.stop _
  | succ fuel ih =>
      refine allows.looks fun pos => allows.looks fun c => ?_
      refine .ite (fun _ => finishWord_keeps allows _) fun _ => ?_
      refine .ite (fun _ => nestedWord_keeps allows _ (expectDollar_keeps allows calls) fun _ => ih _) fun _ => ?_
      refine .ite (fun _ => nestedWord_keeps allows _ calls.backQuotes fun _ => ih _) fun _ => ?_
      refine .ite (fun _ => nestedWord_keeps allows _ (singleQuotes_keeps allows) fun _ => ih _) fun _ => ?_
      refine .ite (fun _ => nestedWord_keeps allows _ (doubleQuotes_keeps allows calls) fun _ => ih _) fun _ => ?_
      refine .ite (fun _ => allows.reads parserReadChar_respects fun _ =>
        allows.looks fun c =>
        ?_)
        fun _ => .ite (fun _ => finishWord_keeps allows _) fun _ => allows.bind
          (parserReadChar_respects allows.reading).keeps
          fun _ => ih _
      exact .ite (fun _ => allows.reads readContinuationLine_respects fun _ => ih _) fun _ =>
        allows.reads parserReadChar_respects fun _ => ih _

theorem word_keeps (stop : Char) : Run.Keeps relation (word self stop) := by
  refine allows.reads (symbol_respects · _) fun isToken => .ite (fun _ => ?_) fun _ => allows.pure _
  refine allows.looks fun c => .ite (fun _ => allows.pure _) fun _ => ?_
  exact allows.looks fun _ => wordLoop_keeps allows calls stop _ _

theorem arithmeticWordLoop_keeps (fuel : Nat) (builder : WordBuilder) :
    Run.Keeps relation (arithmeticWordLoop self fuel builder) := by
  induction fuel generalizing builder with
  | zero => exact allows.stop _
  | succ fuel ih =>
      refine allows.looks fun pos => allows.looks fun c => ?_
      refine allows.looks fun next => allows.looks fun atEnd => ?_
      refine .ite (fun _ => finishWord_keeps allows _) fun _ => ?_
      refine .ite (fun _ => nestedWord_keeps allows _ (expectDollar_keeps allows calls) fun _ => ih _) fun _ => ?_
      refine .ite (fun _ => nestedWord_keeps allows _ calls.backQuotes fun _ => ih _) fun _ => ?_
      refine .ite (fun _ => nestedWord_keeps allows _ (singleQuotes_keeps allows) fun _ => ih _) fun _ => ?_
      refine .ite (fun _ => nestedWord_keeps allows _ (doubleQuotes_keeps allows calls) fun _ => ih _) fun _ => ?_
      refine .ite (fun _ => allows.reads parserReadChar_respects fun _ =>
        allows.looks fun c =>
        ?_)
        fun _ => .ite (fun _ => allows.reads parserReadChar_respects fun _ =>
          readArithmeticChar_keeps allows _ _ ih)
          fun _ => readArithmeticChar_keeps allows _ _ ih
      exact .ite (fun _ => allows.reads readContinuationLine_respects fun _ => ih _) fun _ =>
        readArithmeticChar_keeps allows _ _ ih

theorem arithmeticWord_keeps (stop : Char) : Run.Keeps relation (arithmeticWord self stop) :=
  allows.looks fun _ => .ite (fun _ => allows.pure _) fun _ =>
    allows.looks fun _ => arithmeticWordLoop_keeps allows calls _ _

/-! ## Redirections and assignments -/

theorem hereDocumentLineLoop_keeps (fuel : Nat) (children : List Word) (buf : Str) :
    Run.Keeps relation (hereDocumentLineLoop self fuel children buf) := by
  induction fuel generalizing children buf with
  | zero => exact allows.stop _
  | succ fuel ih =>
      refine allows.looks fun c => .ite (fun _ => ?_) fun _ => .ite (fun _ => ?_) fun _ => ?_
      · generalize pushBufferWordString children buf = pushed
        rcases pushed with _ | ⟨first, _ | ⟨second, rest⟩⟩ <;> exact allows.pure _
      · exact allows.bindOption (expectDollar_keeps allows calls) (allows.pure _) fun _ => ih _ _
      refine .ite (fun _ => allows.bind calls.backQuotes fun _ => ih _ _) fun _ => ?_
      refine allows.looks fun next => .ite (fun _ => ?_) fun _ => ?_
      · refine allows.reads parserReadChar_respects fun _ => ?_
        exact allows.reads parserReadChar_respects fun _ => ih _ _
      · exact allows.reads parserReadChar_respects fun _ => ih _ _

theorem hereDocumentLine_keeps : Run.Keeps relation (hereDocumentLine self) :=
  allows.looks fun _ => hereDocumentLineLoop_keeps allows calls _ _ _

theorem ioHere_keeps : Run.Keeps relation (ioHere self) :=
  allows.readsOption ioHereOp_respects (allows.pure _) fun _ =>
    allows.bindOption (word_keeps allows calls _) (failed_keeps allows _) fun _ => allows.pure _

theorem ioFile_keeps : Run.Keeps relation (ioFile self) :=
  allows.readsOption ioRedirectOp_respects (allows.pure _) fun _ =>
    allows.bindOption (word_keeps allows calls _) (failed_keeps allows _) fun _ => allows.pure _

theorem ioRedirect_keeps : Run.Keeps relation (ioRedirect self) := by
  refine allows.looks fun numberPos => allows.reads ioNumber_respects fun number => ?_
  refine allows.bindOption (ioFile_keeps allows calls) ?_ fun file => allows.bind
    (newAddress_keeps allows) fun _ => allows.pure _
  refine allows.bindOption (ioHere_keeps allows calls) ?_ fun here => allows.bind
    (newAddress_keeps allows) fun addr => ?_
  · exact .ite (fun _ => failed_keeps allows _) fun _ => allows.pure _
  · exact allows.bind (allows.modify fun _ => ⟨rfl, rfl, rfl, rfl⟩) fun _ => allows.pure _

theorem assignmentWord_keeps : Run.Keeps relation (assignmentWord self) := by
  refine allows.reads (symbol_respects · _) fun isToken => .ite (fun _ => ?_) fun _ => allows.pure _
  refine allows.reads (peekName_respects · _) fun nameLen => allows.looks fun next =>
    ?_
  refine .ite (fun _ => allows.pure _) fun _ => allows.bindOption (readToken_respects allows.reading _).keeps
    (allows.stop _)
    fun name => ?_
  refine allows.looks fun equalPos => allows.reads parserReadChar_respects fun _ => ?_
  exact allows.bind (word_keeps allows calls _) fun value => allows.pure _

theorem cmdPrefix_keeps (cmd : SimpleCommand) : Run.Keeps relation (cmdPrefix self cmd) :=
  allows.bindOption (ioRedirect_keeps allows calls)
    (allows.bindOption (assignmentWord_keeps allows calls) (allows.pure _) fun _ => allows.pure _) fun _ =>
      allows.pure _

theorem cmdSuffix_keeps (cmd : SimpleCommand) : Run.Keeps relation (cmdSuffix self cmd) :=
  allows.bindOption (ioRedirect_keeps allows calls)
    (allows.bindOption (word_keeps allows calls _) (allows.pure _) fun _ => allows.pure _) fun _ => allows.pure _

end

/-! ## Here-documents -/

section

variable (calls : Calls relation self)
include calls

theorem expectHereDocument_keeps (redir : IoRedirect) (delim : Str) :
    Run.Keeps relation (expectHereDocument self redir delim) := by
  refine allows.reads (orAbort_respects · _) fun quoted => allows.bind (allows.modify fun _ =>
    ⟨rfl, rfl, rfl, rfl⟩) fun _ => ?_
  refine allows.looks fun fuel => allows.bind (calls.hereDocumentLines _ _ _ _) fun found => ?_
  exact .ite (fun _ => allows.reads consumeSymbol_respects fun _ => allows.pure _) fun _ =>
    allows.pure _

theorem expectHereDocuments_keeps {before : Parse Bool} (beforeKeeps : Run.Keeps relation before)
    (redirs : List IoRedirect) : Run.Keeps relation (expectHereDocuments self before redirs) := by
  induction redirs with
  | nil => exact allows.pure _
  | cons redir redirs ih =>
      refine allows.bind beforeKeeps fun ready => .ite (fun _ => ?_) fun _ => allows.pure _
      refine allows.reads (orAbort_respects · _) fun delim => allows.bind
        (expectHereDocument_keeps allows calls _ _) fun found => ?_
      exact .ite (fun _ => ih) fun _ => allows.pure _

/-! ## Simple commands -/

theorem cmdName_keeps : Run.Keeps relation (cmdName self) := by
  refine allows.bind calls.applyAliases fun _ => allows.reads (peekWord_respects · _) fun wordLen =>
    ?_
  refine .ite (fun _ => word_keeps allows calls.toWordCalls _) fun _ => allows.looks fun buf => ?_
  refine .ite (fun _ => allows.pure _) fun _ => ?_
  exact allows.bindOption (readToken_respects allows.reading _).keeps (allows.stop _) fun _ => allows.pure _

theorem simpleCommand_keeps : Run.Keeps relation (simpleCommand self) := by
  refine allows.bind (repeatPart_keeps allows (cmdPrefix_keeps allows calls.toWordCalls) _ _) fun cmd => ?_
  refine allows.bindOption (cmdName_keeps allows calls) (allows.pure _) fun name => ?_
  exact allows.bind (repeatPart_keeps allows (cmdSuffix_keeps allows calls.toWordCalls) _ _) fun _ =>
    allows.pure _

/-! ## Compound commands -/

theorem term_keeps : Run.Keeps relation (term self) := by
  refine allows.bindOption calls.andOr (allows.pure _) fun andOrList => allows.looks fun separatorPos => ?_
  refine allows.reads separator_respects fun sep => allows.looks fun redirs => ?_
  refine .ite (fun _ => ?_) fun _ => allows.pure _
  refine allows.bind (expectHereDocuments_keeps allows calls (allows.pure _) redirs) fun found => ?_
  refine .ite (fun _ => ?_) fun _ => allows.pure _
  exact allows.bind (allows.modify fun _ => ⟨rfl, rfl, rfl, rfl⟩) fun _ => allows.pure _

theorem compoundList_keeps : Run.Keeps relation (compoundList self) :=
  allows.reads linebreak_respects fun _ => allows.bindOption (term_keeps allows calls)
    (allows.pure _)
    fun _ =>
    collect_keeps allows (term_keeps allows calls) _ _

theorem expectCompoundList_keeps : Run.Keeps relation (expectCompoundList self) := by
  refine allows.bind (compoundList_keeps allows calls) fun cmds => ?_
  cases cmds with
  | nil => exact failed_keeps allows _
  | cons => exact allows.pure _

theorem groupOf_keeps (opening closing : Str) : Run.Keeps relation (groupOf self opening closing) := by
  refine allows.looks fun openPos => allows.readsOption (token_respects · _) (allows.pure _) fun _ => ?_
  refine allows.bindOption (expectCompoundList_keeps allows calls) (allows.pure _) fun body => ?_
  refine allows.looks fun closePos => ?_
  exact allows.readsOption (expectToken_respects · _) (allows.pure _) fun _ => allows.pure _

theorem braceGroup_keeps : Run.Keeps relation (braceGroup self) :=
  allows.bindOption (groupOf_keeps allows calls _ _) (allows.pure _) fun _ => allows.pure _

theorem subshell_keeps : Run.Keeps relation (subshell self) :=
  allows.bindOption (groupOf_keeps allows calls _ _) (allows.pure _) fun _ => allows.pure _

theorem conditionAndBody_keeps : Run.Keeps relation (conditionAndBody self) := by
  refine allows.bindOption (expectCompoundList_keeps allows calls) (allows.pure _) fun cond => ?_
  refine allows.readsOption (expectToken_respects · _) (allows.pure _) fun thenRange => ?_
  exact allows.bindOption (expectCompoundList_keeps allows calls) (allows.pure _) fun body => allows.pure _

theorem elsePart_keeps : Run.Keeps relation (elsePart self) := by
  refine allows.bindOption (token_respects allows.reading _).keeps ?_ fun ifRange => ?_
  · refine allows.readsOption (token_respects · _) (allows.pure _) fun _ => ?_
    exact allows.bindOption (expectCompoundList_keeps allows calls) (allows.pure _) fun _ => allows.pure _
  · refine allows.bindOption (conditionAndBody_keeps allows calls) (allows.pure _) fun parts => ?_
    exact allows.bind calls.elsePart fun _ => allows.pure _

theorem ifClause_keeps : Run.Keeps relation (ifClause self) := by
  refine allows.readsOption (token_respects · _) (allows.pure _) fun ifRange => ?_
  refine allows.bindOption (conditionAndBody_keeps allows calls) (allows.pure _) fun parts => ?_
  refine allows.bind calls.elsePart fun _ => ?_
  exact allows.readsOption (expectToken_respects · _) (allows.pure _) fun _ => allows.pure _

theorem expectDoGroup_keeps : Run.Keeps relation (expectDoGroup self) := by
  refine allows.readsOption (tokenOr_respects · _ _) (allows.pure _) fun doRange => ?_
  refine allows.bindOption (expectCompoundList_keeps allows calls) (allows.pure _) fun body => ?_
  exact allows.readsOption (tokenOr_respects · _ _) (allows.pure _) fun _ => allows.pure _

theorem forWords_keeps (hasIn : Bool) : Run.Keeps relation (forWords self hasIn) := by
  have separated := (sequentialSep_respects allows.reading).keeps
  refine .ite (fun _ => ?_) fun _ => allows.bind separated fun _ => allows.pure _
  refine allows.bind (collect_keeps allows (word_keeps allows calls.toWordCalls _) _ _) fun words =>
    allows.bind separated fun ended => ?_
  exact .ite (fun _ => allows.pure _) fun _ => failed_keeps allows _

theorem forClause_keeps : Run.Keeps relation (forClause self) := by
  refine allows.readsOption (token_respects · _) (allows.pure _) fun forRange => ?_
  refine allows.reads (peekName_respects · _) fun nameLen => .ite (fun _ =>
    failed_keeps allows _) fun _ => ?_
  refine allows.bindOption (readToken_respects allows.reading _).keeps (allows.stop _) fun name => ?_
  refine allows.reads linebreak_respects fun _ => allows.bind
    (token_respects allows.reading _).keeps fun inRange => ?_
  refine allows.bindOption (forWords_keeps allows calls _) (allows.pure _) fun words => ?_
  exact allows.bindOption (expectDoGroup_keeps allows calls) (allows.pure _) fun _ => allows.pure _

theorem loopClause_keeps : Run.Keeps relation (loopClause self) := by
  refine allows.readsOption loopType_respects (allows.pure _) fun type => ?_
  refine allows.bindOption (expectCompoundList_keeps allows calls) (allows.pure _) fun condition => ?_
  exact allows.bindOption (expectDoGroup_keeps allows calls) (allows.pure _) fun _ => allows.pure _

theorem expectWord_keeps : Run.Keeps relation (expectWord self) :=
  allows.bindOption (word_keeps allows calls.toWordCalls _) (failed_keeps allows _) fun _ => allows.pure _

theorem morePatterns_keeps (fuel : Nat) (patterns : List Word) : Run.Keeps relation
    (morePatterns self fuel patterns) := by
  induction fuel generalizing patterns with
  | zero => exact allows.stop _
  | succ fuel ih =>
      refine allows.readsOption (token_respects · _) (allows.pure _) fun _ => ?_
      exact allows.bindOption (expectWord_keeps allows calls) (allows.pure _) fun _ => ih _

theorem casePatterns_keeps : Run.Keeps relation (casePatterns self) :=
  allows.bindOption (expectWord_keeps allows calls) (allows.pure _) fun _ => morePatterns_keeps allows calls _ _

theorem expectCaseItem_keeps : Run.Keeps relation (expectCaseItem self) := by
  refine allows.looks fun pos => allows.reads (token_respects · _) fun lparen => ?_
  refine allows.bindOption (casePatterns_keeps allows calls) (allows.pure _) fun patterns =>
    allows.looks fun _ => ?_
  refine allows.readsOption (expectToken_respects · _) (allows.pure _) fun _ => ?_
  refine allows.bind (compoundList_keeps allows calls) fun body => allows.bindOption (allows.gets _) ?_ fun _ =>
    allows.pure _
  refine allows.reads (operator_respects · _) fun dsemi => .ite (fun _ => ?_) fun _ => ?_
  · exact allows.reads linebreak_respects fun _ => allows.bind
      (newAddress_keeps allows)
      fun _ => allows.pure _
  · exact allows.bind (newAddress_keeps allows) fun _ => allows.pure _

theorem caseItems_keeps (fuel : Nat) (items : List CaseItem) : Run.Keeps relation (caseItems self fuel items)
    := by
  induction fuel generalizing items with
  | zero => exact allows.stop _
  | succ fuel ih =>
      refine allows.bindOption (token_respects allows.reading _).keeps ?_ fun _ => allows.pure _
      refine allows.bindOption (expectCaseItem_keeps allows calls) (allows.pure _) fun item => ?_
      obtain ⟨item, more⟩ := item
      cases more with
      | true => exact ih _
      | false => exact allows.readsOption (expectToken_respects · _) (allows.pure _) fun _ =>
        allows.pure _

theorem caseClause_keeps : Run.Keeps relation (caseClause self) := by
  refine allows.readsOption (token_respects · _) (allows.pure _) fun caseRange => ?_
  refine allows.bindOption (expectWord_keeps allows calls) (allows.pure _) fun word => ?_
  refine allows.reads linebreak_respects fun _ => ?_
  refine allows.readsOption (expectToken_respects · _) (allows.pure _) fun inRange => ?_
  refine allows.reads linebreak_respects fun _ => ?_
  exact allows.bindOption (caseItems_keeps allows calls _ _) (allows.pure _) fun _ => allows.pure _

theorem functionDefinition_keeps : Run.Keeps relation (functionDefinition self) := by
  refine allows.reads (peekName_respects · _) fun nameLen => allows.looks fun buf => ?_
  refine .ite (fun _ => allows.pure _) fun _ => ?_
  refine allows.bindOption (readToken_respects allows.reading _).keeps (allows.stop _) fun name =>
    allows.looks fun _ => ?_
  refine allows.readsOption (expectToken_respects · _) (allows.pure _) fun _ =>
    allows.looks fun _ => ?_
  refine allows.readsOption (expectToken_respects · _) (allows.pure _) fun _ => ?_
  refine allows.reads linebreak_respects fun _ => ?_
  refine allows.bindOption calls.compoundCommand (failed_keeps allows _) fun body => ?_
  exact allows.bind (collect_keeps allows (ioRedirect_keeps allows calls.toWordCalls) _ _) fun _ => allows.pure _

theorem functionCommand_keeps : Run.Keeps relation (functionCommand self) :=
  allows.reads unspecifiedWord_respects fun _ => .ite (fun _ => allows.pure _) fun _ =>
    map_keeps allows (functionDefinition_keeps allows calls)

theorem compoundCommand_keeps : Run.Keeps relation (compoundCommand self) := by
  refine firstCommand_keeps allows _ ?_
  simp only [List.forall_mem_cons, List.not_mem_nil, false_imp_iff, implies_true, and_true]
  exact ⟨map_keeps allows (braceGroup_keeps allows calls), map_keeps allows (subshell_keeps allows calls),
    map_keeps allows (ifClause_keeps allows calls), map_keeps allows (forClause_keeps allows calls),
    map_keeps allows (loopClause_keeps allows calls), map_keeps allows (caseClause_keeps allows calls),
      functionCommand_keeps allows calls⟩

theorem command_keeps : Run.Keeps relation (command self) := by
  refine allows.bind calls.applyAliases fun _ => ?_
  refine allows.bindOption (compoundCommand_keeps allows calls) ?_ fun _ => allows.pure _
  exact allows.bindOption (allows.gets _) (map_keeps allows (simpleCommand_keeps allows calls)) fun _ =>
    allows.pure _

/-! ## Lists and programs -/

theorem moreCommands_keeps (fuel : Nat) (commands : List Command) :
    Run.Keeps relation (moreCommands self fuel commands) := by
  induction fuel generalizing commands with
  | zero => exact allows.stop _
  | succ fuel ih =>
      refine allows.readsOption (token_respects · _) (allows.pure _) fun _ => ?_
      refine allows.reads linebreak_respects fun _ => ?_
      exact allows.bindOption (command_keeps allows calls) (failed_keeps allows _) fun _ => ih _

theorem pipeline_keeps : Run.Keeps relation (pipeline self) := by
  refine allows.reads (token_respects · _) fun bang => ?_
  refine allows.bindOption (command_keeps allows calls) (allows.pure _) fun cmd => ?_
  exact allows.bindOption (moreCommands_keeps allows calls _ _) (allows.pure _) fun _ => allows.pure _

theorem andOr_keeps : Run.Keeps relation (andOr self) := by
  refine allows.bindOption (pipeline_keeps allows calls) (allows.pure _) fun pl => ?_
  refine allows.readsOption binopType_respects (allows.pure _) fun type => ?_
  refine allows.reads linebreak_respects fun _ => ?_
  exact allows.bindOption calls.andOr (failed_keeps allows _) fun _ => allows.pure _

theorem list_keeps : Run.Keeps relation (list self) :=
  allows.bindOption calls.andOr (allows.pure _) fun _ => allows.looks fun _ =>
    allows.reads separatorOp_respects fun _ => allows.pure _

theorem completeCommand_keeps : Run.Keeps relation (completeCommand self) := by
  refine allows.bindOption (list_keeps allows calls) (allows.pure _) fun l => ?_
  refine allows.bind (collect_keeps allows (list_keeps allows calls) _ _) fun cmds =>
    allows.looks fun redirs => ?_
  refine .ite (fun _ => allows.pure _) fun _ => ?_
  refine allows.bind (expectHereDocuments_keeps allows calls (hereDocumentNewline_keeps allows) redirs)
    fun found => ?_
  exact .ite (fun _ => allows.bind (allows.modify fun _ => ⟨rfl, rfl, rfl, rfl⟩) fun _ =>
    allows.pure _) fun _ => allows.pure _

theorem expectCompleteCommand_keeps : Run.Keeps relation (expectCompleteCommand self) := by
  refine allows.bind (completeCommand_keeps allows calls) fun result => ?_
  match result with
  | (_, true) => exact allows.pure _
  | (_, false) => exact failed_keeps allows _

theorem programLines_keeps (fuel : Nat) (body : List CommandList) : Run.Keeps relation
    (programLines self fuel body) := by
  induction fuel generalizing body with
  | zero => exact allows.stop _
  | succ fuel ih =>
      have ended : ∀ result : List CommandList, Run.Keeps relation (linebreak >>= fun _ => pure result) := fun _ =>
        allows.reads linebreak_respects fun _ => allows.pure _
      refine allows.reads newlineList_respects fun more => .ite (fun _ => ?_) fun _ => ended _
      refine allows.reads (symbol_respects · _) fun atEnd => .ite (fun _ => allows.pure _) fun _ => ?_
      refine allows.bind (completeCommand_keeps allows calls) fun result => ?_
      match result with
      | (_, true) => exact ih _
      | (_, false) => exact ended _

theorem program_keeps : Run.Keeps relation (program self) := by
  refine allows.reads linebreak_respects fun _ => allows.bind
    (symbol_respects allows.reading _).keeps fun atEnd => ?_
  refine .ite (fun _ => allows.pure _) fun _ => ?_
  refine allows.bindOption (expectCompleteCommand_keeps allows calls) (allows.pure _) fun body => ?_
  exact allows.bind (programLines_keeps allows calls _ _) fun _ => allows.pure _

theorem parseProgram_keeps : Run.Keeps relation (parseProgram self) :=
  allows.bind (allows.modify fun _ => ⟨rfl, rfl, rfl, rfl⟩) fun _ => program_keeps allows calls

end

/-! ## The recursion -/

/-- What holds of the parsers that have no aliases. -/
structure AllowsNoAliases (relation : Parser → Parser → Prop) : Prop where
  gets : ∀ {α : Type} {next : Option (Str → Option Str) → Parse α}, Run.Keeps relation (next none) →
    Run.Keeps relation (Run.gets (·.aliasFunc) >>= next)
  set : Run.Keeps relation (setAliasFunc none)

theorem applyAliases_keeps (noAliases : AllowsNoAliases relation) (self : Productions) :
    Run.Keeps relation (applyAliases self) :=
  noAliases.gets (allows.pure _)

theorem expectWordCommand_keeps (noAliases : AllowsNoAliases relation)
    (program : Run.Keeps relation self.mrshParseProgram) : Run.Keeps relation (expectWordCommand self) := by
  refine allows.reads parserReadChar_respects fun c =>
    allows.reads (assert_respects · _) fun _ => ?_
  refine allows.reads (symbol_respects · _) fun isToken =>
    allows.reads (assert_respects · _) fun _ => ?_
  refine allows.reads consumeSymbol_respects fun _ => noAliases.gets ?_
  refine allows.bind noAliases.set fun _ => allows.bind program fun prog => ?_
  refine allows.bind noAliases.set fun _ => allows.looks fun error => ?_
  match error, prog with
  | some _, _ => exact allows.pure _
  | none, none => exact failed_keeps allows _
  | none, some _ =>
      exact allows.readsOption (expectToken_respects · _) (allows.pure _) fun _ => allows.pure _

theorem productions_calls (noAliases : AllowsNoAliases relation)
    (backQuotes : ∀ self : Productions, Run.Keeps relation self.mrshParseProgram →
      Run.Keeps relation (backQuotes self))
    (hereDocumentLines : ∀ (self : Productions) redir expandLines delim fuel,
      Run.Keeps relation (hereDocumentLines self redir expandLines delim fuel)) (fuel : Nat) :
    Calls relation (productions fuel) ∧ Run.Keeps relation (productions fuel).mrshParseProgram := by
  have applyAliases := applyAliases_keeps allows noAliases
  induction fuel with
  | zero =>
      have program : Run.Keeps relation Productions.exhausted.mrshParseProgram := allows.stop _
      refine ⟨⟨⟨fun _ => allows.stop _, fun _ => allows.stop _, ?_, backQuotes _ program⟩,
        allows.stop _, allows.stop _, allows.stop _, applyAliases _, hereDocumentLines _⟩, program⟩
      exact expectWordCommand_keeps allows noAliases program
  | succ fuel ih =>
      obtain ⟨calls, -⟩ := ih
      have words := calls.toWordCalls
      have program : Run.Keeps relation (productions (fuel + 1)).mrshParseProgram := parseProgram_keeps allows calls
      refine ⟨⟨⟨word_keeps allows words, arithmeticWord_keeps allows words, ?_, backQuotes _ program⟩,
        andOr_keeps allows calls, elsePart_keeps allows calls, compoundCommand_keeps allows calls,
        applyAliases _, hereDocumentLines _⟩, program⟩
      exact expectWordCommand_keeps allows noAliases program

end Mrsh
