import Mrsh.Parser.Positions

namespace Mrsh

open Mrsh.Data

/-! # The text that is left

Without aliases the parser only takes text from the front of the buffer. Words, redirections
and assignments do so with aliases too, since the program of a command substitution is parsed
without them. An alternative of `compound_command` that is refused without an error has taken
no more than the blanks before a symbol.
-/

structure Shortens (before after : Parser) : Prop where
  suffix : after.buf <:+ before.buf
  sameAlias : after.aliasFunc = before.aliasFunc

theorem Shortens.refl (parser : Parser) : Shortens parser parser := ⟨List.suffix_refl _, rfl⟩

theorem Shortens.trans {before between after : Parser} (first : Shortens before between)
    (second : Shortens between after) :
    Shortens before after := ⟨second.suffix.trans first.suffix, second.sameAlias.trans first.sameAlias⟩

theorem Shortens.of_same {before after : Parser} (sameBuf : after.buf = before.buf)
    (sameAlias : after.aliasFunc = before.aliasFunc) : Shortens before after :=
      ⟨sameBuf ▸ List.suffix_refl _, sameAlias⟩

theorem shortens : AllowsParsing Shortens where
  refl := ⟨Shortens.refl⟩
  trans := ⟨fun _ _ _ => Shortens.trans⟩
  readChar _ c buf starts := ⟨starts ▸ List.suffix_cons c buf, rfl⟩
  symbol _ _ _ := .of_same rfl rfl
  continuation _ := .of_same rfl rfl
  error _ _ _ := .of_same rfl rfl
  notes _ _ sameBuf _ sameAlias _ := .of_same sameBuf sameAlias

/-! ## Words with aliases -/

theorem expectWordCommand_shortens {self : Productions} (program : Run.Keeps ReadsOver self.mrshParseProgram) :
    Run.Keeps Shortens (expectWordCommand self) := by
  have reading := shortens.reading
  refine shortens.bind (parserReadChar_respects reading).keeps fun c => ?_
  refine shortens.bind (assert_respects reading _).keeps fun _ => ?_
  refine shortens.bind (symbol_respects reading _).keeps fun isToken => ?_
  refine shortens.bind (assert_respects reading _).keeps fun _ => ?_
  refine shortens.bind (consumeSymbol_respects reading).keeps fun _ => ?_
  intro parser value after ended
  obtain ⟨_, _, read, ended⟩ := Run.bind_done.mp ended
  cases read
  obtain ⟨_, _, cleared, ended⟩ := Run.bind_done.mp ended
  cases cleared
  obtain ⟨prog, between, parsed, ended⟩ := Run.bind_done.mp ended
  obtain ⟨_, _, restored, ended⟩ := Run.bind_done.mp ended
  cases restored
  have reached : Shortens parser { between with aliasFunc := parser.aliasFunc } := by
    obtain ⟨-, taken, text, -⟩ := program parsed rfl
    exact ⟨⟨taken, text.symm⟩, rfl⟩
  refine reached.trans (shortens.bind (shortens.gets _) (fun error => ?_) ended)
  match error, prog with
  | some _, _ => exact shortens.pure _
  | none, none => exact failed_keeps shortens _
  | none, some _ =>
      exact shortens.bindOption (expectToken_respects reading _).keeps (shortens.pure _) fun _ => shortens.pure _

theorem words_shorten (fuel : Nat) : WordCalls Shortens (productions fuel) := by
  have command := expectWordCommand_shortens (productions_readOver fuel).2
  have quoted : Run.Keeps Shortens (backQuotes (productions fuel)) :=
    backQuotes_stores shortens fun _ _ sameBuf _ sameAlias => .of_same sameBuf sameAlias
  induction fuel with
  | zero => exact ⟨fun _ => shortens.stop _, fun _ => shortens.stop _, command, quoted⟩
  | succ fuel ih =>
      have earlier := ih (expectWordCommand_shortens (productions_readOver fuel).2)
        (backQuotes_stores shortens fun _ _ sameBuf _ sameAlias => .of_same sameBuf sameAlias)
      exact ⟨word_keeps shortens earlier, arithmeticWord_keeps shortens earlier, command, quoted⟩

theorem cmdPrefixes_shorten (fuel count : Nat) (cmd : SimpleCommand) :
    Run.Keeps Shortens (repeatPart (cmdPrefix (productions fuel)) count cmd) :=
  repeatPart_keeps shortens (cmdPrefix_keeps shortens (words_shorten fuel)) count cmd

/-! ## Alternatives that are refused -/

/-- There is an error whenever there is no result. -/
def Complains {α : Type} (parse : Parse (Option α)) : Prop :=
  ∀ ⦃before after : Parser⦄, parse before = .done none after → after.error ≠ none

/-- Without a result and an error, text was only taken from the front. -/
def Refuses {α : Type} (parse : Parse (Option α)) : Prop :=
  ∀ ⦃before after : Parser⦄, parse before = .done none after → after.error = none → Shortens before after

section

variable {α β γ : Type} {self : Productions}

namespace Complains

theorem some (value : α) : Complains (pure (some value)) := by
  intro before after ended
  cases ended

theorem stop (reason : Stop) : Complains (Run.stop reason : Parse (Option α)) := by
  intro before after ended
  cases ended

theorem bind {first : Parse β} {next : β → Parse (Option α)} (complains : ∀ value, Complains (next value)) :
    Complains (first >>= next) := by
  intro before after ended
  obtain ⟨value, between, -, ended⟩ := Run.bind_done.mp ended
  exact complains value ended

/-- The rule for a `match` that gives the failure of its first part on. -/
theorem bindOption {first : Parse (Option β)} {next : Option β → Parse (Option α)} (complains : Complains first)
    (passes : next none = pure none) (nextComplains : ∀ value, Complains (next (Option.some value))) :
    Complains (first >>= next) := by
  intro before after ended
  obtain ⟨value, between, read, ended⟩ := Run.bind_done.mp ended
  cases value with
  | none =>
      rw [passes] at ended
      cases ended
      exact complains read
  | some value => exact nextComplains value ended

theorem ite {condition : Prop} [Decidable condition] {yes no : Parse (Option α)} (yesComplains : Complains yes)
    (noComplains : Complains no) : Complains (if condition then yes else no) := by
  split
  · exact yesComplains
  · exact noComplains

end Complains

theorem mrshParserError_done {error : Option Str} {before after : Parser}
    (ended : mrshParserError before = .done error after) : error = before.error.map Prod.fst ∧ after = before := by
  cases ended
  exact ⟨rfl, rfl⟩

theorem failed_complains (msg : Str) : Complains (do parserSetError msg; pure none : Parse (Option α)) := by
  intro before after ended
  obtain ⟨_, between, failed, ended⟩ := Run.bind_done.mp ended
  cases ended
  exact parserSetError_error failed

theorem tokenOr_complains (str msg : Str) : Complains (tokenOr str msg) :=
  .bind fun found =>
    match found with
    | some _ => .some _
    | none => failed_complains _

theorem expectToken_complains (str : Str) : Complains (expectToken str) := tokenOr_complains str _

theorem expectCompoundList_complains : Complains (expectCompoundList self) := by
  refine .bind fun cmds => ?_
  cases cmds with
  | nil => exact failed_complains _
  | cons => exact .some _

theorem expectWord_complains : Complains (expectWord self) :=
  .bind fun found =>
    match found with
    | some _ => .some _
    | none => failed_complains _

theorem conditionAndBody_complains : Complains (conditionAndBody self) := by
  refine .bindOption expectCompoundList_complains rfl fun cond => ?_
  refine .bindOption (expectToken_complains _) rfl fun thenRange => ?_
  exact .bindOption expectCompoundList_complains rfl fun body => .some _

theorem expectDoGroup_complains : Complains (expectDoGroup self) := by
  refine .bindOption (tokenOr_complains _ _) rfl fun doRange => ?_
  refine .bindOption expectCompoundList_complains rfl fun body => ?_
  exact .bindOption (tokenOr_complains _ _) rfl fun doneRange => .some _

theorem forWords_complains (hasIn : Bool) : Complains (forWords self hasIn) := by
  cases hasIn with
  | true => exact .bind fun words => .bind fun ended => .ite (.some _) (failed_complains _)
  | false => exact .bind fun _ => .some _

theorem morePatterns_complains (fuel : Nat) (patterns : List Word) : Complains (morePatterns self fuel patterns) := by
  induction fuel generalizing patterns with
  | zero => exact .stop _
  | succ fuel ih =>
      refine .bind fun bar => ?_
      cases bar with
      | none => exact .some _
      | some _ => exact .bindOption expectWord_complains rfl fun word => ih _

theorem casePatterns_complains : Complains (casePatterns self) :=
  .bindOption expectWord_complains rfl fun _ => morePatterns_complains _ _

theorem expectCaseItem_complains : Complains (expectCaseItem self) := by
  refine .bind fun pos => .bind fun lparen => .bindOption casePatterns_complains rfl fun patterns =>
    .bind fun rparenPos => ?_
  refine .bindOption (expectToken_complains _) rfl fun _ => .bind fun body => ?_
  intro before after ended
  obtain ⟨error, between, read, ended⟩ := Run.bind_done.mp ended
  obtain ⟨isError, rfl⟩ := mrshParserError_done read
  cases error with
  | some error =>
      cases ended
      exact Option.map_eq_none_iff.not.mp (isError ▸ Option.some_ne_none error)
  | none =>
      obtain ⟨dsemi, more, -, ended⟩ := Run.bind_done.mp ended
      exact Complains.ite (.bind fun _ => .bind fun _ => .some _) (.bind fun _ => .some _) ended

theorem caseItems_complains (fuel : Nat) (items : List CaseItem) : Complains (caseItems self fuel items) := by
  induction fuel generalizing items with
  | zero => exact .stop _
  | succ fuel ih =>
      refine .bind fun esac => ?_
      cases esac with
      | some _ => exact .some _
      | none =>
          refine .bindOption expectCaseItem_complains rfl fun item => ?_
          obtain ⟨item, more⟩ := item
          cases more with
          | true => exact ih _
          | false => exact .bindOption (expectToken_complains _) rfl fun _ => .some _

namespace Refuses

theorem none : Refuses (pure Option.none : Parse (Option α)) := by
  intro before after ended _
  cases ended
  exact Shortens.refl _

theorem bind {first : Parse β} {next : β → Parse (Option α)} (firstShortens : Run.Keeps Shortens first)
    (nextRefuses : ∀ value, Refuses (next value)) : Refuses (first >>= next) := by
  intro before after ended noError
  obtain ⟨value, between, read, ended⟩ := Run.bind_done.mp ended
  exact (firstShortens read).trans (nextRefuses value ended noError)

theorem bindOption {first : Parse (Option β)} {next : Option β → Parse (Option α)} (refuses : Refuses first)
    (passes : next Option.none = pure Option.none) (complains : ∀ value, Complains (next (some value))) :
    Refuses (first >>= next) := by
  intro before after ended noError
  obtain ⟨value, between, read, ended⟩ := Run.bind_done.mp ended
  cases value with
  | none =>
      rw [passes] at ended
      cases ended
      exact refuses read noError
  | some value => exact absurd noError (complains value ended)

theorem map {parse : Parse (Option β)} {change : β → α} (refuses : Refuses parse) :
    Refuses (do pure ((← parse).map change) : Parse (Option α)) := by
  intro before after ended noError
  obtain ⟨value, between, read, ended⟩ := Run.bind_done.mp ended
  cases value with
  | none =>
      cases ended
      exact refuses read noError
  | some value => cases ended

end Refuses

theorem token_refuses (str : Str) : Refuses (token str) := fun _ _ ended _ =>
  (token_respects shortens.reading str).keeps ended

theorem loopType_refuses : Refuses loopType := fun _ _ ended _ => (loopType_respects shortens.reading).keeps ended

theorem groupOf_refuses (opening closing : Str) : Refuses (groupOf self opening closing) := by
  refine .bind (shortens.gets _) fun openPos => .bindOption (token_refuses _) rfl fun _ => ?_
  refine .bindOption expectCompoundList_complains rfl fun body => .bind fun closePos => ?_
  exact .bindOption (expectToken_complains _) rfl fun _ => .some _

theorem ifClause_refuses : Refuses (ifClause self) := by
  refine .bindOption (token_refuses _) rfl fun ifRange => .bindOption conditionAndBody_complains rfl fun parts => ?_
  exact .bind fun elsePart => .bindOption (expectToken_complains _) rfl fun fiRange => .some _

theorem forClause_refuses : Refuses (forClause self) := by
  refine .bindOption (token_refuses _) rfl fun forRange => .bind fun nameLen => .ite (failed_complains _) ?_
  refine .bind fun name => ?_
  match name with
  | none => exact .stop _
  | some _ =>
      refine .bind fun _ => .bind fun inRange => .bindOption (forWords_complains _) rfl fun words => ?_
      exact .bindOption expectDoGroup_complains rfl fun group => .some _

theorem loopClause_refuses : Refuses (loopClause self) := by
  refine .bindOption loopType_refuses rfl fun type => ?_
  refine .bindOption expectCompoundList_complains rfl fun condition => ?_
  exact .bindOption expectDoGroup_complains rfl fun group => .some _

theorem caseClause_refuses : Refuses (caseClause self) := by
  refine .bindOption (token_refuses _) rfl fun caseRange => .bindOption expectWord_complains rfl fun word => ?_
  refine .bind fun _ => .bindOption (expectToken_complains _) rfl fun inRange => .bind fun _ => ?_
  exact .bindOption (caseItems_complains _ _) rfl fun items => .some _

theorem Complains.refuses {parse : Parse (Option α)} (complains : Complains parse) : Refuses parse :=
  fun _ _ ended noError => absurd noError (complains ended)

theorem functionDefinition_complains (nameLen : Nat) : Complains (do
    match ← readToken nameLen with
    | none => Run.stop .aborted
    | some (name, nameRange) => do
        let lparenPos ← getPos
        match ← expectToken ['('] with
        | none => pure none
        | some _ => do
            let rparenPos ← getPos
            match ← expectToken [')'] with
            | none => pure none
            | some _ => do
                linebreak
                match ← self.compoundCommand with
                | none => do
                    parserSetError "expected a compound command".toList
                    pure none
                | some body => do
                    let ioRedirects ← collect (ioRedirect self) self.fuel []
                    pure (some { name, body, ioRedirects, nameRange, lparenPos, rparenPos }) :
    Parse (Option FunctionDefinition)) := by
  refine .bind fun name => ?_
  match name with
  | none => exact .stop _
  | some _ =>
      refine .bind fun lparenPos => .bindOption (expectToken_complains _) rfl fun _ => .bind fun rparenPos => ?_
      refine .bindOption (expectToken_complains _) rfl fun _ => .bind fun _ => .bind fun body => ?_
      match body with
      | none => exact failed_complains _
      | some _ => exact .bind fun ioRedirects => .some _

theorem functionDefinition_refuses : Refuses (functionDefinition self) := by
  refine .bind (peekName_respects shortens.reading _).keeps fun nameLen => .bind (shortens.gets _) fun buf => ?_
  split
  · exact .none
  · exact Complains.refuses (functionDefinition_complains nameLen)

theorem unspecifiedWord_error {before after : Parser} (ended : unspecifiedWord before = .done true after) :
    after.error ≠ none := by
  have failed : ∀ {msg : Str} {before : Parser}, (parserSetError msg >>= fun _ => pure true : Parse Bool) before =
      .done true after → after.error ≠ none := by
    intro msg before ended
    obtain ⟨_, between, failed, ended⟩ := Run.bind_done.mp ended
    cases ended
    exact parserSetError_error failed
  obtain ⟨wordLen, first, -, ended⟩ := Run.bind_done.mp ended
  split at ended
  · cases ended
  obtain ⟨buf, second, -, ended⟩ := Run.bind_done.mp ended
  split at ended
  · exact failed ended
  obtain ⟨nameLen, third, -, ended⟩ := Run.bind_done.mp ended
  obtain ⟨next, fourth, -, ended⟩ := Run.bind_done.mp ended
  split at ended
  · exact failed ended
  · cases ended

theorem functionCommand_refuses : Refuses (functionCommand self) := by
  intro before after ended noError
  obtain ⟨unspecified, between, read, ended⟩ := Run.bind_done.mp ended
  cases unspecified with
  | true =>
      cases ended
      exact absurd noError (unspecifiedWord_error read)
  | false =>
      have reached := (unspecifiedWord_respects shortens.reading).keeps read
      exact reached.trans (Refuses.map functionDefinition_refuses ended noError)

theorem firstCommand_refuses (alternatives : List (Parse (Option Command)))
    (refuse : ∀ alternative ∈ alternatives, Refuses alternative) : Refuses (firstCommand alternatives) := by
  induction alternatives with
  | nil => exact .none
  | cons alternative rest ih =>
      rw [List.forall_mem_cons] at refuse
      intro before after ended noError
      obtain ⟨value, between, read, ended⟩ := Run.bind_done.mp ended
      cases value with
      | some cmd => cases ended
      | none =>
          obtain ⟨error, _, checked, ended⟩ := Run.bind_done.mp ended
          obtain ⟨isError, rfl⟩ := mrshParserError_done checked
          cases error with
          | some error =>
              cases ended
              exact absurd noError (Option.map_eq_none_iff.not.mp (isError ▸ Option.some_ne_none error))
          | none => exact (refuse.1 read (Option.map_eq_none_iff.mp isError.symm)).trans (ih refuse.2 ended noError)

theorem braceGroup_refuses : Refuses (braceGroup self) :=
  .bindOption (groupOf_refuses _ _) rfl fun _ => .some _

theorem subshell_refuses : Refuses (subshell self) :=
  .bindOption (groupOf_refuses _ _) rfl fun _ => .some _

theorem compoundCommand_refuses : Refuses (compoundCommand self) := by
  refine firstCommand_refuses _ ?_
  simp only [List.forall_mem_cons, List.not_mem_nil, false_imp_iff, implies_true, and_true]
  exact ⟨.map braceGroup_refuses, .map subshell_refuses, .map ifClause_refuses, .map forClause_refuses,
    .map loopClause_refuses, .map caseClause_refuses, functionCommand_refuses⟩

end

end Mrsh
