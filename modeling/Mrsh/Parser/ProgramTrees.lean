import Mrsh.Parser.Trees

namespace Mrsh

open Mrsh.Data

/-! # The programs that the parser builds

A program is well-formed if and only if the lines of its here-documents are, because
everything can be expanded in them. The rest of the tree always is.
-/

section

variable {α β : Type} {good : α → Prop} {better : β → Prop} {self : Productions} {stretch : Stretch} {known : Prop}

abbrev GoodRedirects (stretch : Stretch) (redirs : List IoRedirect) : Prop :=
  Good stretch (wellFormedRedirects redirs) (redirectsRanges (fillRedirects stretch.lines redirs))

abbrev GoodAssignments (stretch : Stretch) (assigns : List Assignment) : Prop :=
  Good stretch (wellFormedAssignments assigns) (assignmentsRanges (fillAssignments stretch.lines assigns))

abbrev GoodCaseItems (stretch : Stretch) (items : List CaseItem) : Prop :=
  Good stretch (wellFormedCaseItems items) (caseItemsRanges (fillCaseItems stretch.lines items))

abbrev GoodCommands (stretch : Stretch) (cmds : List Command) : Prop :=
  Good stretch (!cmds.isEmpty && wellFormedCommands cmds) (commandsRanges (fillCommands stretch.lines cmds))

abbrev GoodLists (stretch : Stretch) (body : List CommandList) : Prop :=
  Good stretch (wellFormedLists body) (listsRanges (fillLists stretch.lines body))

theorem linebreak_builds {next : Unit → Parse α} (nextBuilds : ∀ value, Builds stretch known good (next value)) :
    Builds stretch known good (linebreak >>= next) := Builds.quiet (linebreak_respects allowsReading_forward) nextBuilds

/-! ## Lists of nodes -/

theorem wellFormedRedirects_append (first second : List IoRedirect) :
    wellFormedRedirects (first ++ second) = (wellFormedRedirects first && wellFormedRedirects second) := by
  induction first with
  | nil => rfl
  | cons redir redirs ih => simp [wellFormedRedirects, ih, Bool.and_assoc]

theorem wellFormedAssignments_append (first second : List Assignment) :
    wellFormedAssignments (first ++ second) = (wellFormedAssignments first && wellFormedAssignments second) := by
  induction first with
  | nil => rfl
  | cons assign assigns ih => simp [wellFormedAssignments, ih, Bool.and_assoc]

theorem wellFormedCaseItems_append (first second : List CaseItem) :
    wellFormedCaseItems (first ++ second) = (wellFormedCaseItems first && wellFormedCaseItems second) := by
  induction first with
  | nil => rfl
  | cons item items ih => simp [wellFormedCaseItems, ih, Bool.and_assoc]

theorem wellFormedCommands_append (first second : List Command) :
    wellFormedCommands (first ++ second) = (wellFormedCommands first && wellFormedCommands second) := by
  induction first with
  | nil => rfl
  | cons cmd cmds ih => simp [wellFormedCommands, ih, Bool.and_assoc]

theorem wellFormedLists_append (first second : List CommandList) :
    wellFormedLists (first ++ second) = (wellFormedLists first && wellFormedLists second) := by
  induction first with
  | nil => rfl
  | cons l ls ih => simp [wellFormedLists, ih, Bool.and_assoc]

theorem redirectsRanges_fill_append (lines : Address → List Word) (first second : List IoRedirect) :
    redirectsRanges (fillRedirects lines (first ++ second)) =
      redirectsRanges (fillRedirects lines first) ++ redirectsRanges (fillRedirects lines second) := by
  induction first with
  | nil => rfl
  | cons redir redirs ih =>
      cases redir
      simp [fillRedirects, fillRedirect, redirectsRanges, ih]

theorem assignmentsRanges_fill_append (lines : Address → List Word) (first second : List Assignment) :
    assignmentsRanges (fillAssignments lines (first ++ second)) =
      assignmentsRanges (fillAssignments lines first) ++ assignmentsRanges (fillAssignments lines second) := by
  induction first with
  | nil => rfl
  | cons assign assigns ih =>
      cases assign
      simp [fillAssignments, fillAssignment, assignmentsRanges, ih]

theorem caseItemsRanges_fill_append (lines : Address → List Word) (first second : List CaseItem) :
    caseItemsRanges (fillCaseItems lines (first ++ second)) =
      caseItemsRanges (fillCaseItems lines first) ++ caseItemsRanges (fillCaseItems lines second) := by
  induction first with
  | nil => rfl
  | cons item items ih =>
      cases item
      simp [fillCaseItems, fillCaseItem, caseItemsRanges, ih]

theorem commandsRanges_fill_append (lines : Address → List Word) (first second : List Command) :
    commandsRanges (fillCommands lines (first ++ second)) =
      commandsRanges (fillCommands lines first) ++ commandsRanges (fillCommands lines second) := by
  induction first with
  | nil => rfl
  | cons cmd cmds ih => simp [fillCommands, commandsRanges, ih]

theorem listsRanges_fill_append (lines : Address → List Word) (first second : List CommandList) :
    listsRanges (fillLists lines (first ++ second)) =
      listsRanges (fillLists lines first) ++ listsRanges (fillLists lines second) := by
  induction first with
  | nil => rfl
  | cons l ls ih =>
      cases l
      simp [fillLists, fillList, listsRanges, ih]

theorem GoodRedirects.append {first second : List IoRedirect} (isGood : GoodRedirects stretch first)
    (moreGood : GoodRedirects stretch second) : GoodRedirects stretch (first ++ second) := by
  have both := isGood.and moreGood
  rwa [← wellFormedRedirects_append, ← redirectsRanges_fill_append] at both

theorem GoodAssignments.append {first second : List Assignment} (isGood : GoodAssignments stretch first)
    (moreGood : GoodAssignments stretch second) : GoodAssignments stretch (first ++ second) := by
  have both := isGood.and moreGood
  rwa [← wellFormedAssignments_append, ← assignmentsRanges_fill_append] at both

theorem GoodCaseItems.append {first second : List CaseItem} (isGood : GoodCaseItems stretch first)
    (moreGood : GoodCaseItems stretch second) : GoodCaseItems stretch (first ++ second) := by
  have both := isGood.and moreGood
  rwa [← wellFormedCaseItems_append, ← caseItemsRanges_fill_append] at both

theorem GoodLists.append {first second : List CommandList} (isGood : GoodLists stretch first)
    (moreGood : GoodLists stretch second) : GoodLists stretch (first ++ second) := by
  have both := isGood.and moreGood
  rwa [← wellFormedLists_append, ← listsRanges_fill_append] at both

theorem collect_builds {parse : Parse (Option α)} {whole : List α → Prop}
    (yields : ∀ {known}, Yields stretch known (fun value => whole [value]) parse)
    (append : ∀ {first second}, whole first → whole second → whole (first ++ second)) (fuel : Nat) {values : List α}
    (isGood : known → whole values) : Builds stretch known whole (collect parse fuel values) := by
  induction fuel generalizing known values with
  | zero => exact Builds.stop _
  | succ fuel ih =>
      exact yields.bind (Builds.pure isGood) fun value => ih fun knows => append (isGood knows.1) knows.2

theorem repeatPart_builds {part : α → Parse (Option α)}
    (yields : ∀ {known value}, (known → good value) → Yields stretch known good (part value)) (fuel : Nat) {value : α}
    (isGood : known → good value) : Builds stretch known good (repeatPart part fuel value) := by
  induction fuel generalizing known value with
  | zero => exact Builds.stop _
  | succ fuel ih => exact (yields isGood).bind (Builds.pure isGood) fun next => ih And.right

/-! ## Here-documents -/

theorem readLine_respects {relation : Parser → Parser → Prop} (allows : AllowsReading relation) (fuel : Nat)
    (buf : Str) : Run.Respects relation (readLine fuel buf) := by
  induction fuel generalizing buf with
  | zero => exact allows.stop _
  | succ fuel ih =>
      refine allows.bind (allows.gets _) fun c => .ite (fun _ => allows.pure _) fun _ => ?_
      exact allows.bind (parserReadChar_respects allows) fun _ => ih _

theorem orAbort_respects {relation : Parser → Parser → Prop} (allows : AllowsReading relation) (value : Option α) :
    Run.Respects relation (orAbort value) :=
  match value with
  | some value => allows.pure value
  | none => allows.stop _

theorem addHereDocumentLine_builds {redir : IoRedirect} {line : HereLine} {word : Word} {next : Unit → Parse α}
    (stored : StoredLine line (redir.addr, word)) (nextBuilds : ∀ value, Builds stretch known good (next value)) :
    Builds stretch known good (addHereDocumentLine redir word >>= next) := by
  refine Run.EndsAlike.bind (Run.EndsAlike.modify fun parser at_ => ?_) nextBuilds
  obtain ⟨lines, entries, bodies, ofLines⟩ := at_.recorded
  refine ⟨⟨lines ++ [line], entries ++ [(redir.addr, word)], ?_, ?_⟩, at_.opens, at_.knows⟩
  · dsimp only
    rw [bodies, List.append_assoc]
  · exact List.rel_append ofLines (List.Forall₂.cons stored .nil)

theorem storedLine_literal (addr : Address) (text : Str) :
    StoredLine ⟨addr, text, false, 0, mrshParserWithData text⟩ (addr, mrshWordStringCreate text true) :=
  ⟨rfl, rfl, fun _ expanded => (by cases expanded), fun _ => rfl⟩

variable (builders : Builders self)
include builders

/-- A line in which everything can be expanded is stored as a well-formed word. -/
theorem hereDocumentLine_builds (redir : IoRedirect) (text : Str) {next : Parse α}
    (nextBuilds : Builds stretch known good next) :
    Builds stretch known good (withSubparser text (hereDocumentLine self) >>= fun parsed =>
      addHereDocumentLine redir parsed.1 >>= fun _ => next) := by
  intro parser at_
  rw [Run.bind_apply]
  cases ended : withSubparser text (hereDocumentLine self) parser with
  | stopped reason after => exact ⟨rfl, trivial⟩
  | done parsed after =>
      obtain ⟨fuel, rfl⟩ := builders.level
      obtain ⟨word, error⟩ := parsed
      have run := ended
      unfold withSubparser at run
      split at run
      next value sub read =>
          cases run
          let line : HereLine := ⟨redir.addr, text, true, fuel, parser⟩
          have lineRead : hereDocumentLineLoop (productions fuel) (text.length + 1) [] [] line.subparser =
              .done word sub := read
          have recordedLine : Recorded stretch.stored line.subparser := at_.recorded
          obtain ⟨recordedSub, isGood⟩ := hereDocumentLineLoop_wellFormed builders _ recordedLine lineRead
          have stored : StoredLine line (redir.addr, word) :=
            ⟨rfl, ⟨_, _, ended⟩, isGood.trans (by simp [wellFormedWords, HereLine.Readable, line])⟩
          exact addHereDocumentLine_builds stored (fun _ => nextBuilds) _ ⟨recordedSub, at_.opens, at_.knows⟩
      next => cases run

theorem hereDocumentLines_builds (redir : IoRedirect) (expandLines : Bool) (delim : Str) (fuel : Nat) :
    Builds stretch known (fun _ => True) (hereDocumentLines self redir expandLines delim fuel) := by
  induction fuel with
  | zero => exact Builds.stop _
  | succ fuel ih =>
      have found (value : Bool) : Builds stretch known (fun _ => True) (pure value) := Builds.pure fun _ => trivial
      refine gets_builds fun lineFuel => Builds.quiet (readLine_respects allowsReading_forward _ _) fun buf => ?_
      refine gets_builds fun next => Builds.ite (fun _ => Builds.ite (fun _ => ?_) fun _ => found _) fun _ => ?_
      · exact readChar_builds fun _ => found _
      refine Builds.ite (fun _ => ?_) fun _ => ?_
      · exact Builds.quiet (parserSetError_respects allowsReading_forward _) fun _ => found _
      refine continuationLine_builds fun _ =>
        Builds.ite (fun expands => hereDocumentLine_builds builders redir _ ih) fun _ => ?_
      exact addHereDocumentLine_builds (storedLine_literal _ _) fun _ => ih

theorem expectHereDocument_builds (redir : IoRedirect) (delim : Str) :
    Builds stretch known (fun _ => True) (expectHereDocument self redir delim) := by
  refine Builds.quiet (orAbort_respects allowsReading_forward _) fun quoted =>
    modify_builds (fun _ => ⟨rfl, rfl⟩) fun _ => ?_
  refine gets_builds fun fuel => Builds.bind (hereDocumentLines_builds builders _ _ _ _) fun found => ?_
  refine Builds.ite (fun _ => consumeSymbol_builds fun _ => ?_) fun _ => Builds.pure fun _ => trivial
  exact Builds.pure fun _ => trivial

theorem expectHereDocuments_builds {before : Parse Bool}
    (beforeBuilds : ∀ {known}, Builds stretch known (fun _ => True) before) (redirs : List IoRedirect) :
    Builds stretch known (fun _ => True) (expectHereDocuments self before redirs) := by
  induction redirs generalizing known with
  | nil => exact Builds.pure fun _ => trivial
  | cons redir redirs ih =>
      refine Builds.bind beforeBuilds fun ready => Builds.ite (fun _ => ?_) fun _ => Builds.pure fun _ => trivial
      refine Builds.quiet (orAbort_respects allowsReading_forward _) fun delim => ?_
      refine Builds.bind (expectHereDocument_builds builders redir delim) fun found => ?_
      exact Builds.ite (fun _ => ih) fun _ => Builds.pure fun _ => trivial

omit builders in
theorem hereDocumentNewline_builds : Builds stretch known (fun _ => True) hereDocumentNewline := by
  have found (value : Bool) : Builds stretch known (fun _ => True) (pure value) := Builds.pure fun _ => trivial
  refine Builds.quiet (newline_respects allowsReading_forward) fun _ => Builds.ite (fun _ => found _) fun _ => ?_
  exact Builds.quiet (parserSetError_respects allowsReading_forward _) fun _ => found _

/-! ## Redirections and simple commands -/

omit builders in
theorem operator_yields (sym : SymbolName) : Yields stretch known (GoodRange stretch) (operator sym) := by
  refine symbol_builds fun _ => Builds.ite (fun _ => getPos_builds fun begin => ?_) fun _ => Yields.nothing
  match operatorStr sym with
  | none => exact Builds.stop _
  | some str =>
      refine Builds.quiet (parserRead_respects allowsReading_forward _) fun _ => assert_builds fun _ => ?_
      refine getPos_builds fun finish => consumeSymbol_builds fun _ => Yields.some fun ⟨⟨_, begins⟩, ends⟩ => ?_
      exact Stretch.holds_recorded (fun _ => begins) ends

omit builders in
theorem ioHereOp_yields : Yields stretch known (fun operation => GoodRange stretch operation.2) ioHereOp := by
  refine (operator_yields _).bind ?_ fun _ => Yields.some And.right
  exact (operator_yields _).bind Yields.nothing fun _ => Yields.some And.right

omit builders in
theorem firstOp_yields (alternatives : List (Parse (Option Range) × IoRedirectOp))
    (yield : ∀ alternative ∈ alternatives, Yields stretch known (GoodRange stretch) alternative.1) :
    Yields stretch known (fun operation => GoodRange stretch operation.2) (firstOp alternatives) := by
  induction alternatives with
  | nil => exact Yields.nothing
  | cons alternative rest ih =>
      refine (yield alternative List.mem_cons_self).bind (ih fun alternative member => ?_) fun _ =>
        Yields.some And.right
      exact yield alternative (List.mem_cons_of_mem _ member)

omit builders in
theorem ioRedirectOp_yields : Yields stretch known (fun operation => GoodRange stretch operation.2) ioRedirectOp := by
  refine firstOp_yields _ ?_
  simp only [List.forall_mem_cons, List.not_mem_nil, false_imp_iff, implies_true, and_true]
  exact ⟨token_yields _, token_yields _, operator_yields _, operator_yields _, operator_yields _, operator_yields _,
    operator_yields _⟩

omit builders in
theorem applyAliases_builds {next : Unit → Parse α} (nextBuilds : ∀ value, Builds stretch known good (next value)) :
    Builds stretch known good (applyAliases self >>= next) := by
  refine Builds.quiet ?_ nextBuilds
  have allows := allowsReading_forward
  have loop : ∀ aliasFunc fuel lastRepl, Run.Respects Forward (applyAliasesLoop aliasFunc fuel lastRepl) := by
    intro aliasFunc fuel
    induction fuel with
    | zero => exact fun _ => allows.stop _
    | succ fuel ih =>
        refine fun lastRepl => allows.bind (symbol_respects allows _) fun isToken => ?_
        refine .ite (fun _ => ?_) fun _ => allows.pure _
        refine allows.bind (allows.bind (peekWord_respects allows _) fun _ => allows.bind (allows.gets _) fun _ =>
          allows.pure _) fun aliasLen => ?_
        refine .ite (fun _ => allows.pure _) fun _ => allows.bind (allows.gets _) fun buf => ?_
        dsimp only
        match aliasFunc (buf.take aliasLen) with
        | none => exact allows.pure _
        | some repl =>
            refine .ite (fun _ => allows.pure _) fun _ =>
              allows.bind (.modify fun _ => ⟨rfl, Nat.le_refl _⟩) fun _ => ?_
            exact allows.bind (consumeSymbol_respects allows) fun _ => ih _
  refine allows.bind (allows.gets _) fun aliasFunc => ?_
  match aliasFunc with
  | none => exact allows.pure _
  | some aliasFunc => exact loop aliasFunc _ _

/-- The operator and the name that it is followed by. -/
abbrev GoodTarget (stretch : Stretch) (target : IoRedirectOp × Range × Word) : Prop :=
  GoodRange stretch target.2.1 ∧ GoodWord stretch target.2.2

theorem ioHere_yields : Yields stretch known (GoodTarget stretch) (ioHere self) :=
  ioHereOp_yields.bind Yields.nothing fun _ => (word_yields builders '\x00').bind (failed_yields _) fun _ =>
    Yields.some fun ⟨⟨_, range⟩, isGood⟩ => ⟨range, isGood⟩

theorem ioFile_yields : Yields stretch known (GoodTarget stretch) (ioFile self) :=
  ioRedirectOp_yields.bind Yields.nothing fun _ => (word_yields builders '\x00').bind (failed_yields _) fun _ =>
    Yields.some fun ⟨⟨_, range⟩, isGood⟩ => ⟨range, isGood⟩

omit builders in
theorem newAddress_builds {next : Address → Parse α} (nextBuilds : ∀ addr, Builds stretch known good (next addr)) :
    Builds stretch known good (newAddress >>= next) :=
  Builds.quiet (allowsReading_forward.bind (allowsReading_forward.gets _) fun _ =>
    allowsReading_forward.bind (.modify fun _ => ⟨rfl, Nat.le_refl _⟩) fun _ => allowsReading_forward.pure _) nextBuilds

omit builders in
theorem GoodTarget.redirect {target : IoRedirectOp × Range × Word} (isGood : GoodTarget stretch target) (addr : Address)
    (ioNumber : Int) (ioNumberPos : Position) :
    GoodRedirects stretch [{ addr, ioNumber, ioNumberPos,
                             op := target.1, opRange := target.2.1, name := target.2.2, hereDocument := [] }] :=
  ⟨by simp [wellFormedRedirects, wellFormedRedirect, wellFormedWords, isGood.2.wellFormed],
    by simp [fillRedirects, fillRedirect, redirectsRanges, isGood.1, isGood.2.within]⟩

theorem ioRedirect_yields : Yields stretch known (fun redir => GoodRedirects stretch [redir]) (ioRedirect self) := by
  refine gets_builds fun numberPos => Builds.quiet (ioNumber_respects allowsReading_forward) fun number => ?_
  refine (ioFile_yields builders).bind ?_ fun file => newAddress_builds fun addr => Yields.some fun knows =>
    GoodTarget.redirect knows.2 _ _ _
  refine (ioHere_yields builders).bind ?_ fun here => newAddress_builds fun addr => ?_
  · exact Builds.ite (fun _ => failed_yields _) fun _ => Yields.nothing
  · exact modify_builds (fun _ => ⟨rfl, rfl⟩) fun _ => Yields.some fun knows => GoodTarget.redirect knows.2 _ _ _

theorem assignmentWord_yields :
    Yields stretch known (fun assign => GoodAssignments stretch [assign]) (assignmentWord self) := by
  refine symbol_builds fun isToken => Builds.ite (fun _ => ?_) fun _ => Yields.nothing
  refine Builds.quiet (peekName_respects allowsReading_forward _) fun nameLen => gets_builds fun next => ?_
  refine Builds.ite (fun _ => Yields.nothing) fun _ => (readToken_yields _).bind (Builds.stop _) fun name => ?_
  refine gets_builds fun equalPos => readChar_builds fun _ => ?_
  refine Builds.bind (word_yields builders '\x00') fun value => Yields.some fun ⟨⟨_, range⟩, isGood⟩ => ?_
  cases value with
  | none =>
      exact ⟨rfl, by simp [fillAssignments, fillAssignment, assignmentsRanges, range, mrshWordStringCreate, fillWord,
        wordRanges]⟩
  | some value =>
      have valueGood := isGood value rfl
      exact ⟨by simp [wellFormedAssignments, wellFormedAssignment, valueGood.wellFormed],
        by simp [fillAssignments, fillAssignment, assignmentsRanges, range, valueGood.within]⟩

/-- A simple command all of whose parts are good. -/
structure GoodParts (stretch : Stretch) (cmd : SimpleCommand) : Prop where
  name : ∀ name ∈ cmd.name, GoodWord stretch name
  arguments : GoodWords stretch cmd.arguments
  ioRedirects : GoodRedirects stretch cmd.ioRedirects
  assignments : GoodAssignments stretch cmd.assignments

omit builders in
theorem GoodParts.command {cmd : SimpleCommand} (isGood : GoodParts stretch cmd) :
    GoodCommand stretch (.simpleCommand cmd) := by
  obtain ⟨name, arguments, ioRedirects, assignments⟩ := cmd
  obtain ⟨nameGood, argumentsGood, redirectsGood, assignmentsGood⟩ := isGood
  cases name with
  | none => exact (argumentsGood.and redirectsGood).and assignmentsGood
  | some name => exact (((nameGood name rfl).and argumentsGood).and redirectsGood).and assignmentsGood

theorem cmdPrefix_yields {cmd : SimpleCommand} (isGood : known → GoodParts stretch cmd) :
    Yields stretch known (GoodParts stretch) (cmdPrefix self cmd) := by
  refine (ioRedirect_yields builders).bind ?_ fun redir => Yields.some fun ⟨knows, redirGood⟩ =>
    { isGood knows with ioRedirects := (isGood knows).ioRedirects.append redirGood }
  exact (assignmentWord_yields builders).bind Yields.nothing fun assign => Yields.some fun ⟨knows, assignGood⟩ =>
    { isGood knows with assignments := (isGood knows).assignments.append assignGood }

theorem cmdSuffix_yields {cmd : SimpleCommand} (isGood : known → GoodParts stretch cmd) :
    Yields stretch known (GoodParts stretch) (cmdSuffix self cmd) := by
  refine (ioRedirect_yields builders).bind ?_ fun redir => Yields.some fun ⟨knows, redirGood⟩ =>
    { isGood knows with ioRedirects := (isGood knows).ioRedirects.append redirGood }
  exact (word_yields builders '\x00').bind Yields.nothing fun arg => Yields.some fun ⟨knows, argGood⟩ =>
    { isGood knows with arguments := (isGood knows).arguments.append argGood.alone }

theorem cmdName_yields : Yields stretch known (GoodWord stretch) (cmdName self) := by
  refine applyAliases_builds fun _ => Builds.quiet (peekWord_respects allowsReading_forward _) fun wordLen => ?_
  refine Builds.ite (fun _ => word_yields builders '\x00') fun _ => gets_builds fun buf => ?_
  refine Builds.ite (fun _ => Yields.nothing) fun _ => (readToken_yields _).bind (Builds.stop _) fun name => ?_
  exact Yields.some fun knows => ⟨rfl, knows.2⟩

theorem simpleCommand_yields :
    Yields stretch known (fun sc => GoodCommand stretch (.simpleCommand sc)) (simpleCommand self) := by
  have empty : known → GoodParts stretch { name := none, arguments := [], ioRedirects := [], assignments := [] } :=
    fun _ => ⟨fun _ member => (by cases member), ⟨rfl, Stretch.holds_nil⟩, ⟨rfl, Stretch.holds_nil⟩,
      ⟨rfl, Stretch.holds_nil⟩⟩
  refine Builds.bind (repeatPart_builds (cmdPrefix_yields builders) _ empty) fun cmd => ?_
  refine (cmdName_yields builders).bind ?_ fun name => ?_
  · refine Builds.pure fun knows result member => ?_
    have same : cmd = result := by
      split at member
      · exact Option.some.inj member
      · cases member
    exact same ▸ knows.2.command
  · have named (knows : (known ∧ GoodParts stretch cmd) ∧ GoodWord stretch name) :
        GoodParts stretch { cmd with name := some name } :=
      { knows.1.2 with name := fun _ member => (by cases member; exact knows.2) }
    refine Builds.bind (repeatPart_builds (cmdSuffix_yields builders) _ named) fun cmd => ?_
    exact Yields.some fun knows => knows.2.command

/-! ## Compound commands -/

omit builders in
theorem GoodAndOr.lists {andOrList : AndOrList} (isGood : GoodAndOr stretch andOrList) (sep : Option Separator)
    (pos : Position) : GoodLists stretch [commandListOf andOrList sep pos] :=
  ⟨by simp [wellFormedLists, wellFormedList, commandListOf, isGood.wellFormed],
    by simp [fillLists, fillList, listsRanges, commandListOf, isGood.within]⟩

theorem term_yields : Yields stretch known (fun l => GoodLists stretch [l]) (term self) := by
  refine builders.andOr.bind Yields.nothing fun andOrList => gets_builds fun separatorPos => ?_
  refine Builds.quiet (separator_respects allowsReading_forward) fun sep => gets_builds fun redirs => ?_
  refine Builds.ite (fun _ => ?_) fun _ => Yields.some fun knows => GoodAndOr.lists knows.2 _ _
  have ready {known : Prop} : Builds stretch known (fun _ => True) (pure true : Parse Bool) :=
    Builds.pure fun _ => trivial
  refine Builds.bind (expectHereDocuments_builds builders ready redirs) fun found => Builds.ite (fun _ => ?_) fun _ =>
    Yields.nothing
  exact modify_builds (fun _ => ⟨rfl, rfl⟩) fun _ => Yields.some fun knows => GoodAndOr.lists knows.1.2 _ _

theorem compoundList_builds : Builds stretch known (GoodLists stretch) (compoundList self) := by
  have empty : known → GoodLists stretch [] := fun _ => ⟨rfl, Stretch.holds_nil⟩
  refine linebreak_builds fun _ => (term_yields builders).bind (Builds.pure empty) fun l => ?_
  exact collect_builds (term_yields builders) .append _ And.right

theorem expectCompoundList_yields : Yields stretch known (GoodLists stretch) (expectCompoundList self) := by
  refine Builds.bind (compoundList_builds builders) fun cmds => ?_
  cases cmds with
  | nil => exact failed_yields _
  | cons => exact Yields.some And.right

theorem groupOf_yields (opening closing : Str) :
    Yields stretch known (fun group => GoodLists stretch group.1) (groupOf self opening closing) := by
  refine gets_builds fun openPos => (token_yields _).bind Yields.nothing fun _ => ?_
  refine (expectCompoundList_yields builders).bind Yields.nothing fun body => gets_builds fun closePos => ?_
  exact (expectToken_yields _).bind Yields.nothing fun _ => Yields.some fun knows => knows.1.2

theorem braceGroup_yields : Yields stretch known (fun bg => GoodCommand stretch (.braceGroup bg)) (braceGroup self) :=
  (groupOf_yields builders _ _).bind Yields.nothing fun _ => Yields.some fun knows => knows.2

theorem subshell_yields : Yields stretch known (fun ss => GoodCommand stretch (.subshell ss)) (subshell self) :=
  (groupOf_yields builders _ _).bind Yields.nothing fun _ => Yields.some fun knows => knows.2

abbrev GoodBranch (stretch : Stretch) (branch : List CommandList × Range × List CommandList) : Prop :=
  GoodLists stretch branch.1 ∧ GoodRange stretch branch.2.1 ∧ GoodLists stretch branch.2.2

theorem conditionAndBody_yields : Yields stretch known (GoodBranch stretch) (conditionAndBody self) := by
  refine (expectCompoundList_yields builders).bind Yields.nothing fun cond => ?_
  refine (expectToken_yields _).bind Yields.nothing fun thenRange => ?_
  refine (expectCompoundList_yields builders).bind Yields.nothing fun body => ?_
  exact Yields.some fun ⟨⟨⟨_, condGood⟩, range⟩, bodyGood⟩ => ⟨condGood, range, bodyGood⟩

omit builders in
theorem GoodBranch.ifClause {branch : List CommandList × Range × List CommandList} (isGood : GoodBranch stretch branch)
    {elsePart : Option Command} (elseGood : ∀ cmd ∈ elsePart, GoodCommand stretch cmd) {ifRange fiRange : Range}
    (ifGood : GoodRange stretch ifRange) (fiGood : GoodRange stretch fiRange) : GoodCommand stretch (.ifClause
      { condition := branch.1, body := branch.2.2, elsePart, ifRange, thenRange := branch.2.1, fiRange }) := by
  obtain ⟨condition, range, body⟩ := isGood
  cases elsePart with
  | none =>
      exact ⟨by simp [wellFormedCommand, wellFormedIfClause, condition.wellFormed, body.wellFormed],
        by simp [fillCommand, fillIfClause, commandRanges, ifGood, condition.within, range, body.within, fiGood]⟩
  | some cmd =>
      have other := elseGood cmd rfl
      exact ⟨by simp [wellFormedCommand, wellFormedIfClause, condition.wellFormed, body.wellFormed, other.wellFormed],
        by simp [fillCommand, fillIfClause, commandRanges, ifGood, condition.within, range, body.within, other.within,
          fiGood]⟩

theorem elsePart_yields : Yields stretch known (GoodCommand stretch) (elsePart self) := by
  refine (token_yields _).bind ?_ fun ifRange => ?_
  · refine (token_yields _).bind Yields.nothing fun _ => ?_
    exact (expectCompoundList_yields builders).bind Yields.nothing fun body => Yields.some fun knows => knows.2
  · refine (conditionAndBody_yields builders).bind Yields.nothing fun branch => ?_
    refine Builds.bind builders.elsePart fun elsePart => Yields.some fun ⟨⟨⟨_, range⟩, branchGood⟩, elseGood⟩ => ?_
    exact branchGood.ifClause elseGood range Stretch.holds_invalid

theorem ifClause_yields : Yields stretch known (fun ic => GoodCommand stretch (.ifClause ic)) (ifClause self) := by
  refine (token_yields _).bind Yields.nothing fun ifRange => ?_
  refine (conditionAndBody_yields builders).bind Yields.nothing fun branch => ?_
  refine Builds.bind builders.elsePart fun elsePart => (expectToken_yields _).bind Yields.nothing fun fiRange => ?_
  exact Yields.some fun ⟨⟨⟨⟨_, range⟩, branchGood⟩, elseGood⟩, fiGood⟩ => branchGood.ifClause elseGood range fiGood

abbrev GoodGroup (stretch : Stretch) (group : List CommandList × Range × Range) : Prop :=
  GoodLists stretch group.1 ∧ GoodRange stretch group.2.1 ∧ GoodRange stretch group.2.2

theorem expectDoGroup_yields : Yields stretch known (GoodGroup stretch) (expectDoGroup self) := by
  refine (tokenOr_yields _ _).bind Yields.nothing fun doRange => ?_
  refine (expectCompoundList_yields builders).bind Yields.nothing fun body => ?_
  refine (tokenOr_yields _ _).bind Yields.nothing fun doneRange => ?_
  exact Yields.some fun ⟨⟨⟨_, doGood⟩, bodyGood⟩, doneGood⟩ => ⟨bodyGood, doGood, doneGood⟩

theorem forWords_yields (hasIn : Bool) : Yields stretch known (GoodWords stretch) (forWords self hasIn) := by
  have separated := sequentialSep_respects allowsReading_forward
  have empty : known → GoodWords stretch [] := fun _ => ⟨rfl, Stretch.holds_nil⟩
  refine Builds.ite (fun _ => ?_) fun _ => Builds.quiet separated fun _ => Yields.some empty
  have read : Builds stretch known (GoodWords stretch) (wordlist self) :=
    collect_builds ((word_yields builders '\x00').weaken fun _ isGood => isGood.alone) .append _ empty
  refine Builds.bind read fun words => Builds.quiet separated fun ended => ?_
  exact Builds.ite (fun _ => Yields.some And.right) fun _ => failed_yields _

theorem forClause_yields : Yields stretch known (fun fc => GoodCommand stretch (.forClause fc)) (forClause self) := by
  refine (token_yields _).bind Yields.nothing fun forRange => ?_
  refine Builds.quiet (peekName_respects allowsReading_forward _) fun nameLen => ?_
  refine Builds.ite (fun _ => failed_yields _) fun _ => (readToken_yields _).bind (Builds.stop _) fun name => ?_
  refine linebreak_builds fun _ => Builds.bind (token_yields _) fun inRange => ?_
  refine (forWords_yields builders _).bind Yields.nothing fun words => ?_
  refine (expectDoGroup_yields builders).bind Yields.nothing fun group => Yields.some ?_
  rintro ⟨⟨⟨⟨⟨_, forGood⟩, nameGood⟩, inGood⟩, wordsGood⟩, bodyGood, doGood, doneGood⟩
  have inside : GoodRange stretch (inRange.getD .invalid) := by
    cases inRange with
    | none => exact Stretch.holds_invalid
    | some range => exact inGood range rfl
  exact ⟨by simp [wellFormedCommand, wellFormedForClause, wordsGood.wellFormed, bodyGood.wellFormed],
    by simp [fillCommand, fillForClause, commandRanges, forGood, nameGood, inside, wordsGood.within, doGood,
      bodyGood.within, doneGood]⟩

omit builders in
theorem loopType_yields : Yields stretch known (fun type => GoodRange stretch type.2) loopType := by
  refine (token_yields _).bind ?_ fun _ => Yields.some And.right
  exact (token_yields _).bind Yields.nothing fun _ => Yields.some And.right

theorem loopClause_yields :
    Yields stretch known (fun lc => GoodCommand stretch (.loopClause lc)) (loopClause self) := by
  refine loopType_yields.bind Yields.nothing fun type => ?_
  refine (expectCompoundList_yields builders).bind Yields.nothing fun condition => ?_
  refine (expectDoGroup_yields builders).bind Yields.nothing fun group => Yields.some ?_
  rintro ⟨⟨⟨_, range⟩, conditionGood⟩, bodyGood, doGood, doneGood⟩
  exact ⟨by simp [wellFormedCommand, wellFormedLoopClause, conditionGood.wellFormed, bodyGood.wellFormed],
    by simp [fillCommand, fillLoopClause, commandRanges, range, conditionGood.within, doGood, bodyGood.within,
      doneGood]⟩

theorem expectWord_yields : Yields stretch known (GoodWord stretch) (expectWord self) :=
  (word_yields builders '\x00').bind (failed_yields _) fun _ => Yields.some And.right

theorem morePatterns_yields (fuel : Nat) {patterns : List Word} (isGood : known → GoodWords stretch patterns) :
    Yields stretch known (GoodWords stretch) (morePatterns self fuel patterns) := by
  induction fuel generalizing patterns known with
  | zero => exact Builds.stop _
  | succ fuel ih =>
      refine (token_yields _).bind (Yields.some isGood) fun _ => ?_
      refine (expectWord_yields builders).bind Yields.nothing fun word => ih fun ⟨⟨knows, _⟩, wordGood⟩ => ?_
      exact (isGood knows).append wordGood.alone

theorem casePatterns_yields : Yields stretch known (GoodWords stretch) (casePatterns self) :=
  (expectWord_yields builders).bind Yields.nothing fun _ => morePatterns_yields builders _ fun knows => knows.2.alone

theorem expectCaseItem_yields :
    Yields stretch known (fun item => GoodCaseItems stretch [item.1]) (expectCaseItem self) := by
  refine gets_builds fun pos => Builds.quiet (token_respects allowsReading_forward _) fun lparen => ?_
  refine (casePatterns_yields builders).bind Yields.nothing fun patterns => gets_builds fun rparenPos => ?_
  refine (expectToken_yields _).bind Yields.nothing fun _ => Builds.bind (compoundList_builds builders) fun body => ?_
  refine gets_builds fun error => ?_
  match error with
  | some _ => exact Yields.nothing
  | none =>
      refine Builds.bind (operator_yields _) fun dsemi => ?_
      have item {known' : Prop} (addr : Address) (lparenPos : Position)
        (knows : (((known ∧ GoodWords stretch patterns) ∧ known') ∧
          GoodLists stretch body) ∧ ∀ range ∈ dsemi, GoodRange stretch range) : GoodCaseItems stretch
            [{ addr, patterns, body, lparenPos, rparenPos, dsemiRange := dsemi.getD .invalid }] := by
        obtain ⟨⟨⟨⟨_, patternsGood⟩, _⟩, bodyGood⟩, dsemiGood⟩ := knows
        have inside : GoodRange stretch (dsemi.getD .invalid) := by
          cases dsemi with
          | none => exact Stretch.holds_invalid
          | some range => exact dsemiGood range rfl
        exact ⟨by simp [wellFormedCaseItems, wellFormedCaseItem, patternsGood.wellFormed, bodyGood.wellFormed],
          by simp [fillCaseItems, fillCaseItem, caseItemsRanges, patternsGood.within, bodyGood.within, inside]⟩
      refine Builds.ite (fun _ => ?_) fun _ => ?_
      · exact linebreak_builds fun _ => newAddress_builds fun addr => Yields.some (item _ _)
      · exact newAddress_builds fun addr => Yields.some (item _ _)

theorem caseItems_yields (fuel : Nat) {items : List CaseItem} (isGood : known → GoodCaseItems stretch items) :
    Yields stretch known (fun result => GoodCaseItems stretch result.1 ∧ GoodRange stretch result.2)
      (caseItems self fuel items) := by
  induction fuel generalizing items known with
  | zero => exact Builds.stop _
  | succ fuel ih =>
      refine (token_yields _).bind ?_ fun esacRange => Yields.some fun knows => ⟨isGood knows.1, knows.2⟩
      refine (expectCaseItem_yields builders).bind Yields.nothing fun item => ?_
      obtain ⟨item, more⟩ := item
      cases more with
      | true => exact ih fun knows => (isGood knows.1).append knows.2
      | false =>
          refine (expectToken_yields _).bind Yields.nothing fun esacRange => Yields.some fun knows => ?_
          exact ⟨(isGood knows.1.1).append knows.1.2, knows.2⟩

theorem caseClause_yields :
    Yields stretch known (fun cc => GoodCommand stretch (.caseClause cc)) (caseClause self) := by
  refine (token_yields _).bind Yields.nothing fun caseRange => ?_
  refine (expectWord_yields builders).bind Yields.nothing fun word => linebreak_builds fun _ => ?_
  refine (expectToken_yields _).bind Yields.nothing fun inRange => linebreak_builds fun _ => ?_
  have empty {known : Prop} (_ : known) : GoodCaseItems stretch [] := ⟨rfl, Stretch.holds_nil⟩
  refine (caseItems_yields builders _ empty).bind Yields.nothing fun items => Yields.some ?_
  rintro ⟨⟨⟨⟨_, caseGood⟩, wordGood⟩, inGood⟩, itemsGood, esacGood⟩
  exact ⟨by simp [wellFormedCommand, wellFormedCaseClause, wordGood.wellFormed, itemsGood.wellFormed],
    by simp [fillCommand, fillCaseClause, commandRanges, caseGood, wordGood.within, inGood, itemsGood.within, esacGood]⟩

theorem functionDefinition_yields :
    Yields stretch known (fun fd => GoodCommand stretch (.functionDefinition fd)) (functionDefinition self) := by
  refine Builds.quiet (peekName_respects allowsReading_forward _) fun nameLen => gets_builds fun buf => ?_
  refine Builds.ite (fun _ => Yields.nothing) fun _ => (readToken_yields _).bind (Builds.stop _) fun name => ?_
  refine gets_builds fun lparenPos => (expectToken_yields _).bind Yields.nothing fun _ => ?_
  refine gets_builds fun rparenPos => (expectToken_yields _).bind Yields.nothing fun _ => ?_
  refine linebreak_builds fun _ => builders.compoundCommand.bind (failed_yields _) fun body => ?_
  have empty {known : Prop} (_ : known) : GoodRedirects stretch [] := ⟨rfl, Stretch.holds_nil⟩
  refine Builds.bind (collect_builds (ioRedirect_yields builders) .append _ empty) fun redirs => Yields.some ?_
  rintro ⟨⟨⟨⟨⟨_, nameGood⟩, _⟩, _⟩, bodyGood⟩, redirsGood⟩
  exact ⟨by simp [wellFormedCommand, wellFormedFunctionDefinition, bodyGood.wellFormed, redirsGood.wellFormed],
    by simp [fillCommand, fillFunctionDefinition, commandRanges, nameGood, bodyGood.within, redirsGood.within]⟩

omit builders in
theorem firstCommand_yields (alternatives : List (Parse (Option Command)))
    (yield : ∀ alternative ∈ alternatives, Yields stretch known (GoodCommand stretch) alternative) :
    Yields stretch known (GoodCommand stretch) (firstCommand alternatives) := by
  induction alternatives with
  | nil => exact Yields.nothing
  | cons alternative rest ih =>
      refine (yield alternative List.mem_cons_self).bind (gets_builds fun error => ?_) fun cmd => Yields.some And.right
      match error with
      | some _ => exact Yields.nothing
      | none => exact ih fun alternative member => yield alternative (List.mem_cons_of_mem _ member)

theorem functionCommand_yields : Yields stretch known (GoodCommand stretch) (functionCommand self) :=
  Builds.quiet (unspecifiedWord_respects allowsReading_forward) fun _ =>
    Builds.ite (fun _ => Yields.nothing) fun _ => (functionDefinition_yields builders).map fun _ isGood => isGood

theorem compoundCommand_yields : Yields stretch known (GoodCommand stretch) (compoundCommand self) := by
  refine firstCommand_yields _ ?_
  simp only [List.forall_mem_cons, List.not_mem_nil, false_imp_iff, implies_true, and_true]
  exact ⟨(braceGroup_yields builders).map fun _ isGood => isGood, (subshell_yields builders).map fun _ isGood => isGood,
    (ifClause_yields builders).map fun _ isGood => isGood, (forClause_yields builders).map fun _ isGood => isGood,
    (loopClause_yields builders).map fun _ isGood => isGood, (caseClause_yields builders).map fun _ isGood => isGood,
    functionCommand_yields builders⟩

theorem command_yields : Yields stretch known (GoodCommand stretch) (command self) := by
  refine applyAliases_builds fun _ => (compoundCommand_yields builders).bind (gets_builds fun error => ?_) fun _ =>
    Yields.some And.right
  match error with
  | some _ => exact Yields.nothing
  | none => exact (simpleCommand_yields builders).map fun _ isGood => isGood

/-! ## Lists and programs -/

omit builders in
theorem GoodCommand.commands {cmd : Command} (isGood : GoodCommand stretch cmd) : GoodCommands stretch [cmd] :=
  ⟨by simp [wellFormedCommands, isGood.wellFormed], by simp [fillCommands, commandsRanges, isGood.within]⟩

omit builders in
theorem GoodCommands.append {commands : List Command} (isGood : GoodCommands stretch commands) {cmd : Command}
    (cmdGood : GoodCommand stretch cmd) : GoodCommands stretch (commands ++ [cmd]) := by
  obtain ⟨wellFormed, within⟩ := isGood
  rw [Bool.and_eq_true] at wellFormed
  refine ⟨?_, ?_⟩
  · rw [wellFormedCommands_append, wellFormed.2]
    simp [wellFormedCommands, cmdGood.wellFormed]
  · rw [commandsRanges_fill_append, Stretch.holds_append]
    exact ⟨within, cmdGood.commands.within⟩

theorem moreCommands_yields (fuel : Nat) {commands : List Command} (isGood : known → GoodCommands stretch commands) :
    Yields stretch known (GoodCommands stretch) (moreCommands self fuel commands) := by
  induction fuel generalizing commands known with
  | zero => exact Builds.stop _
  | succ fuel ih =>
      refine (token_yields _).bind (Yields.some isGood) fun _ => linebreak_builds fun _ => ?_
      refine (command_yields builders).bind (failed_yields _) fun cmd => ih fun ⟨⟨knows, _⟩, cmdGood⟩ => ?_
      exact (isGood knows).append cmdGood

theorem pipeline_yields : Yields stretch known (fun pl => GoodAndOr stretch (.pipeline pl)) (pipeline self) := by
  refine Builds.quiet (token_respects allowsReading_forward _) fun bang => ?_
  refine (command_yields builders).bind Yields.nothing fun cmd => ?_
  refine (moreCommands_yields builders _ fun knows => knows.2.commands).bind Yields.nothing fun commands => ?_
  exact Yields.some fun knows => knows.2

omit builders in
theorem binopType_yields : Yields stretch known (fun type => GoodRange stretch type.2) binopType := by
  refine (operator_yields _).bind ?_ fun _ => Yields.some And.right
  exact (operator_yields _).bind Yields.nothing fun _ => Yields.some And.right

theorem andOr_yields : Yields stretch known (GoodAndOr stretch) (andOr self) := by
  refine (pipeline_yields builders).bind Yields.nothing fun pl => ?_
  refine binopType_yields.bind (Yields.some And.right) fun type => linebreak_builds fun _ => ?_
  refine builders.andOr.bind (failed_yields _) fun andOrList => Yields.some fun ⟨⟨⟨_, plGood⟩, range⟩, isGood⟩ => ?_
  have wellFormed : wellFormedPipeline pl = true := plGood.wellFormed
  refine ⟨by simp [wellFormedAndOrList, wellFormed, isGood.wellFormed], ?_⟩
  exact Stretch.holds_append.mpr ⟨Stretch.holds_append.mpr ⟨plGood.within, range⟩, isGood.within⟩

theorem list_yields : Yields stretch known (fun l => GoodLists stretch [l]) (list self) :=
  builders.andOr.bind Yields.nothing fun _ => gets_builds fun _ =>
    Builds.quiet (separatorOp_respects allowsReading_forward) fun _ => Yields.some fun knows =>
      GoodAndOr.lists knows.2 _ _

theorem completeCommand_builds :
    Builds stretch known (fun result => GoodLists stretch result.1) (completeCommand self) := by
  have empty : known → GoodLists stretch [] := fun _ => ⟨rfl, Stretch.holds_nil⟩
  refine (list_yields builders).bind (Builds.pure empty) fun l => ?_
  refine Builds.bind (collect_builds (list_yields builders) .append _ And.right) fun cmds =>
    gets_builds fun redirs => ?_
  refine Builds.ite (fun _ => Builds.pure And.right) fun _ => ?_
  refine Builds.bind (expectHereDocuments_builds builders hereDocumentNewline_builds redirs) fun found => ?_
  have read : ((known ∧ GoodLists stretch [l]) ∧ GoodLists stretch cmds) ∧ True → GoodLists stretch cmds :=
    fun knows => knows.1.2
  exact Builds.ite (fun _ => modify_builds (fun _ => ⟨rfl, rfl⟩) fun _ => Builds.pure read) fun _ => Builds.pure read

theorem expectCompleteCommand_yields : Yields stretch known (GoodLists stretch) (expectCompleteCommand self) := by
  refine Builds.bind (completeCommand_builds builders) fun result => ?_
  match result with
  | (cmds, true) => exact Yields.some And.right
  | (_, false) => exact failed_yields _

theorem programLines_builds (fuel : Nat) {body : List CommandList} (isGood : known → GoodLists stretch body) :
    Builds stretch known (GoodLists stretch) (programLines self fuel body) := by
  induction fuel generalizing body known with
  | zero => exact Builds.stop _
  | succ fuel ih =>
      refine Builds.quiet (newlineList_respects allowsReading_forward) fun ended => Builds.ite (fun _ => ?_) fun _ =>
        linebreak_builds fun _ => Builds.pure isGood
      refine symbol_builds fun atEnd => Builds.ite (fun _ => Builds.pure isGood) fun _ => ?_
      refine Builds.bind (completeCommand_builds builders) fun result => ?_
      match result with
      | (cmds, true) => exact ih fun knows => (isGood knows.1).append knows.2
      | (cmds, false) => exact linebreak_builds fun _ => Builds.pure fun knows => (isGood knows.1).append knows.2

omit builders in
theorem GoodLists.program {body : List CommandList} (isGood : GoodLists stretch body) :
    GoodProgram stretch ⟨body⟩ := isGood

theorem program_yields : Yields stretch known (GoodProgram stretch) (program self) := by
  refine linebreak_builds fun _ => symbol_builds fun atEnd => ?_
  refine Builds.ite (fun _ => Yields.some fun _ => ⟨rfl, Stretch.holds_nil⟩) fun _ => ?_
  refine (expectCompleteCommand_yields builders).bind Yields.nothing fun body => ?_
  exact Builds.bind (programLines_builds builders _ And.right) fun body => Yields.some fun knows => knows.2.program

theorem parseProgram_yields : Yields stretch known (GoodProgram stretch) (parseProgram self) :=
  modify_builds (fun _ => ⟨rfl, rfl⟩) fun _ => program_yields builders

omit builders in
theorem skipLine_respects {relation : Parser → Parser → Prop} (allows : AllowsReading relation) (fuel : Nat) :
    Run.Respects relation (skipLine fuel) := by
  induction fuel with
  | zero => exact allows.stop _
  | succ fuel ih =>
      refine allows.bind (allows.gets _) fun c => .ite (fun _ => allows.pure _) fun _ => ?_
      exact allows.bind (parserReadChar_respects allows) fun _ => .ite (fun _ => allows.pure _) fun _ => ih

omit builders in
theorem parseLineError_yields : Yields stretch known (GoodProgram stretch) parseLineError :=
  gets_builds fun _ => Builds.quiet (skipLine_respects allowsReading_forward _) fun _ =>
    consumeSymbol_builds fun _ => Yields.nothing

theorem parseLine_yields : Yields stretch known (GoodProgram stretch) (parseLine self) := by
  have failed {known : Prop} (msg : Str) : Yields stretch known (GoodProgram stretch)
      (parserSetError msg >>= fun _ => parseLineError) :=
    Builds.quiet (parserSetError_respects allowsReading_forward msg) fun _ => parseLineError_yields
  refine modify_builds (fun _ => ⟨rfl, rfl⟩) fun _ => symbol_builds fun atEnd => ?_
  refine Builds.ite (fun _ => Yields.nothing) fun _ =>
    Builds.quiet (newline_respects allowsReading_forward) fun blank => ?_
  refine Builds.ite (fun _ => Yields.some fun _ => ⟨rfl, Stretch.holds_nil⟩) fun _ => ?_
  refine (expectCompleteCommand_yields builders).bind parseLineError_yields fun body => ?_
  have parsed : known ∧ GoodLists stretch body → GoodProgram stretch ⟨body⟩ := fun knows => knows.2.program
  refine symbol_builds fun ended => Builds.ite (fun _ => ?_) fun _ => ?_
  · refine Builds.quiet (allowsReading_forward.pure _) fun ended => ?_
    exact Builds.ite (fun _ => Yields.some parsed) fun _ => failed _
  · refine Builds.quiet (newline_respects allowsReading_forward) fun ended => ?_
    exact Builds.ite (fun _ => Yields.some parsed) fun _ => failed _

end

/-! ## The recursion -/

theorem productions_build (fuel : Nat) : Builders (productions fuel) := by
  induction fuel with
  | zero =>
      exact ⟨⟨0, rfl⟩, fun _ => Builds.stop _, fun _ => Builds.stop _, Builds.stop _, Builds.stop _, Builds.stop _,
        Builds.stop _⟩
  | succ fuel ih =>
      exact ⟨⟨fuel + 1, rfl⟩, word_yields ih, arithmeticWord_yields ih, parseProgram_yields ih, andOr_yields ih,
        elsePart_yields ih, compoundCommand_yields ih⟩

/-! ## The lines of here-documents -/

/-- The words that were stored while the parser ran are those of the lines. -/
def LinesOf (lines : List HereLine) (parser : Parser) : Prop :=
  List.Forall₂ (fun line entry => entry.1 = line.addr ∧ line.ReadAs entry.2) lines parser.bodies

/-- The entry points for a program and for a line. -/
inductive EntryPoint where
  | program | line

def EntryPoint.parse : EntryPoint → Nat → Parse (Option Program)
  | .program => mrshParseProgram
  | .line => mrshParseLine

/-- A parser that has no lines yet, or that has only been used through its entry points.
Between two uses it may get more text. -/
inductive Session : Parser → Prop where
  | start {parser : Parser} : parser.bodies = [] → Session parser
  | next {parser after between : Parser} {value : Option Program} (entry : EntryPoint) (fuel : Nat) : Session parser →
      entry.parse fuel parser = .done value after → between.bodies = after.bodies → Session between

theorem withHereDocuments_done {parse : Parse (Option Program)} {parser after : Parser} {value : Option Program}
    (ended : withHereDocuments parse parser = .done value after) :
    ∃ prog, parse parser = .done prog after ∧ value = prog.map (fillProgram (hereDocumentOf after)) := by
  unfold withHereDocuments at ended
  obtain ⟨prog, between, read, ended⟩ := done_of_bind ended
  cases ended
  exact ⟨prog, read, rfl⟩

theorem EntryPoint.builds (entry : EntryPoint) (fuel : Nat) {parser after : Parser} {value : Option Program}
    {stored : List (Address × Word)} (recorded : Recorded stored parser)
    (ended : entry.parse fuel parser = .done value after) :
    Recorded stored after ∧ ∀ program ∈ value, ∃ unfilled, program = fillProgram (hereDocumentOf after) unfilled ∧
      wellFormedProgram unfilled = true := by
  have split : ∃ parse, (∀ stretch, Yields stretch True (GoodProgram stretch) parse) ∧
      withHereDocuments parse parser = .done value after := by
    cases entry with
    | program => exact ⟨_, fun _ => parseProgram_yields (productions_build fuel), ended⟩
    | line => exact ⟨_, fun _ => parseLine_yields (productions_build fuel), ended⟩
  obtain ⟨parse, yields, ended⟩ := split
  obtain ⟨prog, read, rfl⟩ := withHereDocuments_done ended
  obtain ⟨recordedAfter, _, isGood⟩ := Builds.reaches yields (hereDocumentOf after) recorded read
  refine ⟨recordedAfter, fun program member => ?_⟩
  obtain ⟨unfilled, found, rfl⟩ := Option.map_eq_some_iff.mp member
  exact ⟨unfilled, rfl, (isGood unfilled found).wellFormed⟩

theorem Session.recorded {parser : Parser} (session : Session parser) : Recorded [] parser := by
  induction session with
  | start empty => exact ⟨[], [], empty, .nil⟩
  | next entry fuel _ ended same ih =>
      obtain ⟨lines, entries, bodies, ofLines⟩ := (entry.builds fuel ih ended).1
      exact ⟨lines, entries, same.trans bodies, ofLines⟩

theorem wellFormed_hereDocumentOf {lines : List HereLine} {parser : Parser}
    (stored : List.Forall₂ StoredLine lines parser.bodies) (addr : Address) :
    wellFormedWords (hereDocumentOf parser addr) = true ↔ ∀ line ∈ lines, line.addr = addr → line.Readable := by
  unfold hereDocumentOf
  generalize parser.bodies = bodies at stored
  induction stored with
  | nil => simp [wellFormedWords]
  | @cons line entry lines bodies first rest ih =>
      rw [List.forall_mem_cons, ← ih, ← first.1, ← first.2.2]
      by_cases same : entry.1 = addr
      · simp [same, wellFormedWords]
      · simp [same]

/-- A program that the parser returns is well-formed exactly if every line of its
here-documents that is expanded can be: no dollar and no back quote in it fails. -/
theorem parse_wellFormed_iff (entry : EntryPoint) (fuel : Nat) {parser after : Parser} {program : Program}
    (session : Session parser) (ended : entry.parse fuel parser = .done (some program) after) :
    ∃ lines, LinesOf lines after ∧
      (wellFormedProgram program = true ↔ ∀ line ∈ lines, line.addr ∈ addressesProgram program → line.Readable) := by
  obtain ⟨⟨lines, entries, bodies, stored⟩, built⟩ := entry.builds fuel session.recorded ended
  rw [List.nil_append] at bodies
  rw [← bodies] at stored
  obtain ⟨unfilled, rfl, isGood⟩ := built program rfl
  refine ⟨lines, stored.imp fun _ _ both => ⟨both.1, both.2.1⟩, ?_⟩
  rw [wellFormed_fillProgram, isGood, Bool.true_and, List.all_eq_true]
  simp only [wellFormed_hereDocumentOf stored]
  exact ⟨fun readable line member found => readable _ found line member rfl,
    fun readable addr found line member same => readable line member (same ▸ found)⟩

theorem dollarLine_run : ∃ program after,
    mrshParseProgram 8 (mrshParserWithData "cat <<E\n$\nE\n".toList) = .done (some program) after ∧
      after.error = none ∧ wellFormedProgram program = false := by
  have checked : (mrshParseProgram 8 (mrshParserWithData "cat <<E\n$\nE\n".toList)).value?.join.map wellFormedProgram =
      some false := by
    decide +kernel
  obtain ⟨program, found, illFormed⟩ := Option.map_eq_some_iff.mp checked
  exact ⟨program, _, Outcome.eq_done_some_of_value? found, by decide +kernel, illFormed⟩

theorem parse_wellFormed_dollarLine : ∃ program after lines,
    mrshParseProgram 8 (mrshParserWithData "cat <<E\n$\nE\n".toList) = .done (some program) after ∧
      LinesOf lines after ∧ ¬ ∀ line ∈ lines, line.addr ∈ addressesProgram program → line.Readable := by
  obtain ⟨program, after, ended, -, malformed⟩ := dollarLine_run
  obtain ⟨lines, ofRun, wellFormed⟩ := parse_wellFormed_iff .program 8 (.start rfl) ended
  refine ⟨program, after, lines, ended, ofRun, fun readable => ?_⟩
  rw [wellFormed.mpr readable] at malformed
  cases malformed

/-- The word NULL is stored for the line. -/
theorem hereDocument_stores_null : ¬ ∀ (text : Str) (fuel : Nat) (program : Program) (after : Parser),
    (∀ c ∈ text, c ≠ '\x00') → mrshParseProgram fuel (mrshParserWithData text) = .done (some program) after →
      after.error = none → wellFormedProgram program = true := by
  intro always
  obtain ⟨program, after, ended, noError, malformed⟩ := dollarLine_run
  have wellFormed := always _ 8 program after (by decide) ended noError
  rw [wellFormed] at malformed
  cases malformed

end Mrsh
