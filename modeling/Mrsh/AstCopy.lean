import Mrsh.Ast

namespace Mrsh

/-! # Copies of trees

A copy has addresses of its own and no positions, and none of its strings is marked to be split.
The rest of the tree is copied, if no NULL pointer is in the way.
-/

/-! ## Trees without what a copy loses -/

mutual

def plainWord : Word → Word
  | .string str singleQuoted _ _ => .string str singleQuoted false .invalid
  | .parameter wp => .parameter (plainParameter wp)
  | .command none backQuoted _ => .command none backQuoted .invalid
  | .command (some program) backQuoted _ => .command (some (plainProgram program)) backQuoted .invalid
  | .arithmetic body => .arithmetic (plainWord body)
  | .list children doubleQuoted _ _ => .list (plainWords children) doubleQuoted .invalid .invalid
  | .null => .null

def plainWords : List Word → List Word
  | [] => []
  | word :: words => plainWord word :: plainWords words

def plainParameter : WordParameter → WordParameter
  | { name, op, colon, arg := none, .. } =>
      { name, op, colon, arg := none, dollarPos := .invalid, nameRange := .invalid, opRange := .invalid,
        lbracePos := .invalid, rbracePos := .invalid }
  | { name, op, colon, arg := some arg, .. } =>
      { name, op, colon, arg := some (plainWord arg), dollarPos := .invalid, nameRange := .invalid,
        opRange := .invalid, lbracePos := .invalid, rbracePos := .invalid }

def plainRedirect : IoRedirect → IoRedirect
  | { ioNumber, op, name, hereDocument, .. } =>
      { addr := .parsed 0, ioNumber, op, name := plainWord name, hereDocument := plainWords hereDocument,
        ioNumberPos := .invalid, opRange := .invalid }

def plainRedirects : List IoRedirect → List IoRedirect
  | [] => []
  | redir :: redirs => plainRedirect redir :: plainRedirects redirs

def plainAssignment : Assignment → Assignment
  | { name, value, .. } => { name, value := plainWord value, nameRange := .invalid, equalPos := .invalid }

def plainAssignments : List Assignment → List Assignment
  | [] => []
  | assign :: assigns => plainAssignment assign :: plainAssignments assigns

def plainSimpleCommand : SimpleCommand → SimpleCommand
  | { name := none, arguments, ioRedirects, assignments } =>
      { name := none, arguments := plainWords arguments, ioRedirects := plainRedirects ioRedirects,
        assignments := plainAssignments assignments }
  | { name := some name, arguments, ioRedirects, assignments } =>
      { name := some (plainWord name), arguments := plainWords arguments,
        ioRedirects := plainRedirects ioRedirects, assignments := plainAssignments assignments }

def plainBraceGroup : BraceGroup → BraceGroup
  | { body, .. } => { body := plainLists body, lbracePos := .invalid, rbracePos := .invalid }

def plainSubshell : Subshell → Subshell
  | { body, .. } => { body := plainLists body, lparenPos := .invalid, rparenPos := .invalid }

def plainIfClause : IfClause → IfClause
  | { condition, body, elsePart := none, .. } =>
      { condition := plainLists condition, body := plainLists body, elsePart := none, ifRange := .invalid,
        thenRange := .invalid, fiRange := .invalid }
  | { condition, body, elsePart := some elsePart, .. } =>
      { condition := plainLists condition, body := plainLists body, elsePart := some (plainCommand elsePart),
        ifRange := .invalid, thenRange := .invalid, fiRange := .invalid }

def plainForClause : ForClause → ForClause
  | { name, hasIn, wordList, body, .. } =>
      { name, hasIn, wordList := plainWords wordList, body := plainLists body, forRange := .invalid,
        nameRange := .invalid, inRange := .invalid, doRange := .invalid, doneRange := .invalid }

def plainLoopClause : LoopClause → LoopClause
  | { type, condition, body, .. } =>
      { type, condition := plainLists condition, body := plainLists body, whileUntilRange := .invalid,
        doRange := .invalid, doneRange := .invalid }

def plainCaseItem : CaseItem → CaseItem
  | { patterns, body, .. } =>
      { addr := .parsed 0, patterns := plainWords patterns, body := plainLists body, lparenPos := .invalid,
        rparenPos := .invalid, dsemiRange := .invalid }

def plainCaseItems : List CaseItem → List CaseItem
  | [] => []
  | item :: items => plainCaseItem item :: plainCaseItems items

def plainCaseClause : CaseClause → CaseClause
  | { word, items, .. } =>
      { word := plainWord word, items := plainCaseItems items, caseRange := .invalid, inRange := .invalid,
        esacRange := .invalid }

def plainFunctionDefinition : FunctionDefinition → FunctionDefinition
  | { name, body, ioRedirects, .. } =>
      { name, body := plainCommand body, ioRedirects := plainRedirects ioRedirects, nameRange := .invalid,
        lparenPos := .invalid, rparenPos := .invalid }

def plainCommand : Command → Command
  | .simpleCommand sc => .simpleCommand (plainSimpleCommand sc)
  | .braceGroup bg => .braceGroup (plainBraceGroup bg)
  | .subshell ss => .subshell (plainSubshell ss)
  | .ifClause ic => .ifClause (plainIfClause ic)
  | .forClause fc => .forClause (plainForClause fc)
  | .loopClause lc => .loopClause (plainLoopClause lc)
  | .caseClause cc => .caseClause (plainCaseClause cc)
  | .functionDefinition fd => .functionDefinition (plainFunctionDefinition fd)

def plainCommands : List Command → List Command
  | [] => []
  | cmd :: cmds => plainCommand cmd :: plainCommands cmds

def plainPipeline : Pipeline → Pipeline
  | { commands, bang, .. } => { commands := plainCommands commands, bang, bangPos := .invalid }

def plainAndOrList : AndOrList → AndOrList
  | .pipeline pl => .pipeline (plainPipeline pl)
  | .binop type left right _ => .binop type (plainAndOrList left) (plainAndOrList right) .invalid

def plainList : CommandList → CommandList
  | { andOrList, ampersand, .. } =>
      { andOrList := plainAndOrList andOrList, ampersand, separatorPos := .invalid }

def plainLists : List CommandList → List CommandList
  | [] => []
  | l :: ls => plainList l :: plainLists ls

def plainProgram : Program → Program
  | { body } => { body := plainLists body }

end

/-! ## Trees without NULL pointers

An argument, a command name or an `else` that is missing is no pointer that a copy follows.
-/

mutual

def nonNullWord : Word → Bool
  | .string _ _ _ _ => true
  | .parameter wp => nonNullParameter wp
  | .command none _ _ => false
  | .command (some program) _ _ => nonNullProgram program
  | .arithmetic body => nonNullWord body
  | .list children _ _ _ => nonNullWords children
  | .null => false

def nonNullWords : List Word → Bool
  | [] => true
  | word :: words => nonNullWord word && nonNullWords words

def nonNullParameter : WordParameter → Bool
  | { arg := none, .. } => true
  | { arg := some arg, .. } => nonNullWord arg

def nonNullRedirect : IoRedirect → Bool
  | { name, hereDocument, .. } => nonNullWord name && nonNullWords hereDocument

def nonNullRedirects : List IoRedirect → Bool
  | [] => true
  | redir :: redirs => nonNullRedirect redir && nonNullRedirects redirs

def nonNullAssignment : Assignment → Bool
  | { value, .. } => nonNullWord value

def nonNullAssignments : List Assignment → Bool
  | [] => true
  | assign :: assigns => nonNullAssignment assign && nonNullAssignments assigns

def nonNullSimpleCommand : SimpleCommand → Bool
  | { name := none, arguments, ioRedirects, assignments } =>
      nonNullWords arguments && nonNullRedirects ioRedirects && nonNullAssignments assignments
  | { name := some name, arguments, ioRedirects, assignments } =>
      nonNullWord name && nonNullWords arguments && nonNullRedirects ioRedirects &&
        nonNullAssignments assignments

def nonNullBraceGroup : BraceGroup → Bool
  | { body, .. } => nonNullLists body

def nonNullSubshell : Subshell → Bool
  | { body, .. } => nonNullLists body

def nonNullIfClause : IfClause → Bool
  | { condition, body, elsePart := none, .. } => nonNullLists condition && nonNullLists body
  | { condition, body, elsePart := some elsePart, .. } =>
      nonNullLists condition && nonNullLists body && nonNullCommand elsePart

def nonNullForClause : ForClause → Bool
  | { wordList, body, .. } => nonNullWords wordList && nonNullLists body

def nonNullLoopClause : LoopClause → Bool
  | { condition, body, .. } => nonNullLists condition && nonNullLists body

def nonNullCaseItem : CaseItem → Bool
  | { patterns, body, .. } => nonNullWords patterns && nonNullLists body

def nonNullCaseItems : List CaseItem → Bool
  | [] => true
  | item :: items => nonNullCaseItem item && nonNullCaseItems items

def nonNullCaseClause : CaseClause → Bool
  | { word, items, .. } => nonNullCaseItems items && nonNullWord word

def nonNullFunctionDefinition : FunctionDefinition → Bool
  | { body, ioRedirects, .. } => nonNullRedirects ioRedirects && nonNullCommand body

def nonNullCommand : Command → Bool
  | .simpleCommand sc => nonNullSimpleCommand sc
  | .braceGroup bg => nonNullBraceGroup bg
  | .subshell ss => nonNullSubshell ss
  | .ifClause ic => nonNullIfClause ic
  | .forClause fc => nonNullForClause fc
  | .loopClause lc => nonNullLoopClause lc
  | .caseClause cc => nonNullCaseClause cc
  | .functionDefinition fd => nonNullFunctionDefinition fd

def nonNullCommands : List Command → Bool
  | [] => true
  | cmd :: cmds => nonNullCommand cmd && nonNullCommands cmds

def nonNullPipeline : Pipeline → Bool
  | { commands, .. } => nonNullCommands commands

def nonNullAndOrList : AndOrList → Bool
  | .pipeline pl => nonNullPipeline pl
  | .binop _ left right _ => nonNullAndOrList left && nonNullAndOrList right

def nonNullList : CommandList → Bool
  | { andOrList, .. } => nonNullAndOrList andOrList

def nonNullLists : List CommandList → Bool
  | [] => true
  | l :: ls => nonNullList l && nonNullLists ls

def nonNullProgram : Program → Bool
  | { body } => nonNullLists body

end

/-! ## What a copy keeps -/

/-- The copy of a tree, which is missing exactly if the tree has a NULL pointer. -/
def Copied {α : Type} (complete : α → Bool) (plain : α → α) (copy : Option α) (original : α) : Prop :=
  match copy with
  | some copy => complete original = true ∧ complete copy = true ∧ plain copy = plain original
  | none => complete original = false

namespace Copied

variable {α β : Type} {complete : α → Bool} {plain : α → α} {whole : β → Bool} {plainWhole : β → β}
  {copy : Option α} {part : α} {original : β} {next : α → Option β}

theorem bind (copied : Copied complete plain copy part) (missing : complete part = false → whole original = false)
    (rest : ∀ found, complete part = true → complete found = true → plain found = plain part →
      Copied whole plainWhole (next found) original) : Copied whole plainWhole (copy >>= next) original := by
  cases copy with
  | none => exact missing copied
  | some found => exact rest found copied.1 copied.2.1 copied.2.2

end Copied

section

variable (generation : Nat)

mutual

theorem mrshWordCopy_copied : ∀ word : Word, Copied nonNullWord plainWord (mrshWordCopy generation word) word
  | .string _ _ _ _ => ⟨rfl, rfl, rfl⟩
  | .parameter wp => by
      rw [mrshWordCopy]
      refine (wordParameterCopy_copied wp).bind (by simp +contextual [nonNullWord]) fun _ _ _ _ => ?_
      simp [Copied, nonNullWord, plainWord, *]
  | .command none _ _ => rfl
  | .command (some program) _ _ => by
      rw [mrshWordCopy]
      refine (mrshProgramCopy_copied program).bind (by simp +contextual [nonNullWord]) fun _ _ _ _ => ?_
      simp [Copied, nonNullWord, plainWord, *]
  | .arithmetic body => by
      rw [mrshWordCopy]
      refine (mrshWordCopy_copied body).bind (by simp +contextual [nonNullWord]) fun _ _ _ _ => ?_
      simp [Copied, nonNullWord, plainWord, *]
  | .list children _ _ _ => by
      rw [mrshWordCopy]
      refine (wordArrayCopy_copied children).bind (by simp +contextual [nonNullWord]) fun _ _ _ _ => ?_
      simp [Copied, nonNullWord, plainWord, *]
  | .null => rfl

theorem wordArrayCopy_copied : ∀ words : List Word, Copied nonNullWords plainWords (wordArrayCopy generation words)
    words
  | [] => ⟨rfl, rfl, rfl⟩
  | word :: words => by
      rw [wordArrayCopy]
      refine (mrshWordCopy_copied word).bind (by simp +contextual [nonNullWords]) fun _ _ _ _ =>
        (wordArrayCopy_copied words).bind (by simp +contextual [nonNullWords]) fun _ _ _ _ => ?_
      simp [Copied, nonNullWords, plainWords, *]

theorem wordParameterCopy_copied : ∀ wp : WordParameter, Copied nonNullParameter plainParameter
    (wordParameterCopy generation wp) wp
  | { arg := none, .. } => ⟨rfl, rfl, rfl⟩
  | { arg := some arg, .. } => by
      rw [wordParameterCopy]
      refine (mrshWordCopy_copied arg).bind (by simp +contextual [nonNullParameter]) fun _ _ _ _ => ?_
      simp [Copied, nonNullParameter, plainParameter, *]

theorem mrshIoRedirectCopy_copied : ∀ redir : IoRedirect, Copied nonNullRedirect plainRedirect
    (mrshIoRedirectCopy generation redir) redir
  | { name, hereDocument, .. } => by
      rw [mrshIoRedirectCopy]
      refine (mrshWordCopy_copied name).bind (by simp +contextual [nonNullRedirect]) fun _ _ _ _ =>
        (wordArrayCopy_copied hereDocument).bind (by simp +contextual [nonNullRedirect]) fun _ _ _ _ => ?_
      simp [Copied, nonNullRedirect, plainRedirect, *]

theorem ioRedirectArrayCopy_copied : ∀ redirs : List IoRedirect, Copied nonNullRedirects plainRedirects
    (ioRedirectArrayCopy generation redirs) redirs
  | [] => ⟨rfl, rfl, rfl⟩
  | redir :: redirs => by
      rw [ioRedirectArrayCopy]
      refine (mrshIoRedirectCopy_copied redir).bind (by simp +contextual [nonNullRedirects]) fun _ _ _ _ =>
        (ioRedirectArrayCopy_copied redirs).bind (by simp +contextual [nonNullRedirects]) fun _ _ _ _ => ?_
      simp [Copied, nonNullRedirects, plainRedirects, *]

theorem mrshAssignmentCopy_copied : ∀ assign : Assignment, Copied nonNullAssignment plainAssignment
    (mrshAssignmentCopy generation assign) assign
  | { value, .. } => by
      rw [mrshAssignmentCopy]
      refine (mrshWordCopy_copied value).bind (by simp +contextual [nonNullAssignment]) fun _ _ _ _ => ?_
      simp [Copied, nonNullAssignment, plainAssignment, *]

theorem assignmentArrayCopy_copied : ∀ assigns : List Assignment, Copied nonNullAssignments plainAssignments
    (assignmentArrayCopy generation assigns) assigns
  | [] => ⟨rfl, rfl, rfl⟩
  | assign :: assigns => by
      rw [assignmentArrayCopy]
      refine (mrshAssignmentCopy_copied assign).bind (by simp +contextual [nonNullAssignments]) fun _ _ _ _ =>
        (assignmentArrayCopy_copied assigns).bind (by simp +contextual [nonNullAssignments]) fun _ _ _ _ => ?_
      simp [Copied, nonNullAssignments, plainAssignments, *]

theorem simpleCommandCopy_copied : ∀ sc : SimpleCommand, Copied nonNullSimpleCommand plainSimpleCommand
    (simpleCommandCopy generation sc) sc
  | { name := none, arguments, ioRedirects, assignments } => by
      rw [simpleCommandCopy]
      refine (wordArrayCopy_copied arguments).bind (by simp +contextual [nonNullSimpleCommand]) fun _ _ _ _ =>
        (ioRedirectArrayCopy_copied ioRedirects).bind (by simp +contextual [nonNullSimpleCommand]) fun _ _ _ _ =>
        (assignmentArrayCopy_copied assignments).bind (by simp +contextual [nonNullSimpleCommand]) fun _ _ _ _ => ?_
      simp [Copied, nonNullSimpleCommand, plainSimpleCommand, *]
  | { name := some name, arguments, ioRedirects, assignments } => by
      rw [simpleCommandCopy]
      refine (mrshWordCopy_copied name).bind (by simp +contextual [nonNullSimpleCommand]) fun _ _ _ _ =>
        (wordArrayCopy_copied arguments).bind (by simp +contextual [nonNullSimpleCommand]) fun _ _ _ _ =>
        (ioRedirectArrayCopy_copied ioRedirects).bind (by simp +contextual [nonNullSimpleCommand]) fun _ _ _ _ =>
        (assignmentArrayCopy_copied assignments).bind (by simp +contextual [nonNullSimpleCommand]) fun _ _ _ _ => ?_
      simp [Copied, nonNullSimpleCommand, plainSimpleCommand, *]

theorem braceGroupCopy_copied : ∀ bg : BraceGroup, Copied nonNullBraceGroup plainBraceGroup
    (braceGroupCopy generation bg) bg
  | { body, .. } => by
      rw [braceGroupCopy]
      refine (commandListArrayCopy_copied body).bind (by simp +contextual [nonNullBraceGroup]) fun _ _ _ _ => ?_
      simp [Copied, nonNullBraceGroup, plainBraceGroup, *]

theorem subshellCopy_copied : ∀ ss : Subshell, Copied nonNullSubshell plainSubshell (subshellCopy generation ss) ss
  | { body, .. } => by
      rw [subshellCopy]
      refine (commandListArrayCopy_copied body).bind (by simp +contextual [nonNullSubshell]) fun _ _ _ _ => ?_
      simp [Copied, nonNullSubshell, plainSubshell, *]

theorem ifClauseCopy_copied : ∀ ic : IfClause, Copied nonNullIfClause plainIfClause (ifClauseCopy generation ic) ic
  | { condition, body, elsePart := none, .. } => by
      rw [ifClauseCopy]
      refine (commandListArrayCopy_copied condition).bind (by simp +contextual [nonNullIfClause]) fun _ _ _ _ =>
        (commandListArrayCopy_copied body).bind (by simp +contextual [nonNullIfClause]) fun _ _ _ _ => ?_
      simp [Copied, nonNullIfClause, plainIfClause, *]
  | { condition, body, elsePart := some elsePart, .. } => by
      rw [ifClauseCopy]
      refine (commandListArrayCopy_copied condition).bind (by simp +contextual [nonNullIfClause]) fun _ _ _ _ =>
        (commandListArrayCopy_copied body).bind (by simp +contextual [nonNullIfClause]) fun _ _ _ _ =>
        (mrshCommandCopy_copied elsePart).bind (by simp +contextual [nonNullIfClause]) fun _ _ _ _ => ?_
      simp [Copied, nonNullIfClause, plainIfClause, *]

theorem forClauseCopy_copied : ∀ fc : ForClause, Copied nonNullForClause plainForClause (forClauseCopy generation fc) fc
  | { wordList, body, .. } => by
      rw [forClauseCopy]
      refine (wordArrayCopy_copied wordList).bind (by simp +contextual [nonNullForClause]) fun _ _ _ _ =>
        (commandListArrayCopy_copied body).bind (by simp +contextual [nonNullForClause]) fun _ _ _ _ => ?_
      simp [Copied, nonNullForClause, plainForClause, *]

theorem loopClauseCopy_copied : ∀ lc : LoopClause, Copied nonNullLoopClause plainLoopClause
    (loopClauseCopy generation lc) lc
  | { condition, body, .. } => by
      rw [loopClauseCopy]
      refine (commandListArrayCopy_copied condition).bind (by simp +contextual [nonNullLoopClause]) fun _ _ _ _ =>
        (commandListArrayCopy_copied body).bind (by simp +contextual [nonNullLoopClause]) fun _ _ _ _ => ?_
      simp [Copied, nonNullLoopClause, plainLoopClause, *]

theorem caseItemCopy_copied : ∀ item : CaseItem, Copied nonNullCaseItem plainCaseItem (caseItemCopy generation item)
    item
  | { patterns, body, .. } => by
      rw [caseItemCopy]
      refine (wordArrayCopy_copied patterns).bind (by simp +contextual [nonNullCaseItem]) fun _ _ _ _ =>
        (commandListArrayCopy_copied body).bind (by simp +contextual [nonNullCaseItem]) fun _ _ _ _ => ?_
      simp [Copied, nonNullCaseItem, plainCaseItem, *]

theorem caseItemArrayCopy_copied : ∀ items : List CaseItem, Copied nonNullCaseItems plainCaseItems
    (caseItemArrayCopy generation items) items
  | [] => ⟨rfl, rfl, rfl⟩
  | item :: items => by
      rw [caseItemArrayCopy]
      refine (caseItemCopy_copied item).bind (by simp +contextual [nonNullCaseItems]) fun _ _ _ _ =>
        (caseItemArrayCopy_copied items).bind (by simp +contextual [nonNullCaseItems]) fun _ _ _ _ => ?_
      simp [Copied, nonNullCaseItems, plainCaseItems, *]

theorem caseClauseCopy_copied : ∀ cc : CaseClause, Copied nonNullCaseClause plainCaseClause
    (caseClauseCopy generation cc) cc
  | { word, items, .. } => by
      rw [caseClauseCopy]
      refine (caseItemArrayCopy_copied items).bind (by simp +contextual [nonNullCaseClause]) fun _ _ _ _ =>
        (mrshWordCopy_copied word).bind (by simp +contextual [nonNullCaseClause]) fun _ _ _ _ => ?_
      simp [Copied, nonNullCaseClause, plainCaseClause, *]

theorem functionDefinitionCopy_copied : ∀ fd : FunctionDefinition,
    Copied nonNullFunctionDefinition plainFunctionDefinition (functionDefinitionCopy generation fd) fd
  | { body, ioRedirects, .. } => by
      rw [functionDefinitionCopy]
      refine (ioRedirectArrayCopy_copied ioRedirects).bind (by simp +contextual [nonNullFunctionDefinition])
        fun _ _ _ _ =>
        (mrshCommandCopy_copied body).bind (by simp +contextual [nonNullFunctionDefinition]) fun _ _ _ _ => ?_
      simp [Copied, nonNullFunctionDefinition, plainFunctionDefinition, *]

theorem mrshCommandCopy_copied : ∀ cmd : Command, Copied nonNullCommand plainCommand (mrshCommandCopy generation cmd)
    cmd
  | .simpleCommand sc => by
      rw [mrshCommandCopy]
      refine (simpleCommandCopy_copied sc).bind (by simp +contextual [nonNullCommand]) fun _ _ _ _ => ?_
      simp [Copied, nonNullCommand, plainCommand, *]
  | .braceGroup bg => by
      rw [mrshCommandCopy]
      refine (braceGroupCopy_copied bg).bind (by simp +contextual [nonNullCommand]) fun _ _ _ _ => ?_
      simp [Copied, nonNullCommand, plainCommand, *]
  | .subshell ss => by
      rw [mrshCommandCopy]
      refine (subshellCopy_copied ss).bind (by simp +contextual [nonNullCommand]) fun _ _ _ _ => ?_
      simp [Copied, nonNullCommand, plainCommand, *]
  | .ifClause ic => by
      rw [mrshCommandCopy]
      refine (ifClauseCopy_copied ic).bind (by simp +contextual [nonNullCommand]) fun _ _ _ _ => ?_
      simp [Copied, nonNullCommand, plainCommand, *]
  | .forClause fc => by
      rw [mrshCommandCopy]
      refine (forClauseCopy_copied fc).bind (by simp +contextual [nonNullCommand]) fun _ _ _ _ => ?_
      simp [Copied, nonNullCommand, plainCommand, *]
  | .loopClause lc => by
      rw [mrshCommandCopy]
      refine (loopClauseCopy_copied lc).bind (by simp +contextual [nonNullCommand]) fun _ _ _ _ => ?_
      simp [Copied, nonNullCommand, plainCommand, *]
  | .caseClause cc => by
      rw [mrshCommandCopy]
      refine (caseClauseCopy_copied cc).bind (by simp +contextual [nonNullCommand]) fun _ _ _ _ => ?_
      simp [Copied, nonNullCommand, plainCommand, *]
  | .functionDefinition fd => by
      rw [mrshCommandCopy]
      refine (functionDefinitionCopy_copied fd).bind (by simp +contextual [nonNullCommand]) fun _ _ _ _ => ?_
      simp [Copied, nonNullCommand, plainCommand, *]

theorem commandArrayCopy_copied : ∀ cmds : List Command, Copied nonNullCommands plainCommands
    (commandArrayCopy generation cmds) cmds
  | [] => ⟨rfl, rfl, rfl⟩
  | cmd :: cmds => by
      rw [commandArrayCopy]
      refine (mrshCommandCopy_copied cmd).bind (by simp +contextual [nonNullCommands]) fun _ _ _ _ =>
        (commandArrayCopy_copied cmds).bind (by simp +contextual [nonNullCommands]) fun _ _ _ _ => ?_
      simp [Copied, nonNullCommands, plainCommands, *]

theorem pipelineCopy_copied : ∀ pl : Pipeline, Copied nonNullPipeline plainPipeline (pipelineCopy generation pl) pl
  | { commands, .. } => by
      rw [pipelineCopy]
      refine (commandArrayCopy_copied commands).bind (by simp +contextual [nonNullPipeline]) fun _ _ _ _ => ?_
      simp [Copied, nonNullPipeline, plainPipeline, *]

theorem mrshAndOrListCopy_copied : ∀ andOrList : AndOrList, Copied nonNullAndOrList plainAndOrList
    (mrshAndOrListCopy generation andOrList) andOrList
  | .pipeline pl => by
      rw [mrshAndOrListCopy]
      refine (pipelineCopy_copied pl).bind (by simp +contextual [nonNullAndOrList]) fun _ _ _ _ => ?_
      simp [Copied, nonNullAndOrList, plainAndOrList, *]
  | .binop _ left right _ => by
      rw [mrshAndOrListCopy]
      refine (mrshAndOrListCopy_copied left).bind (by simp +contextual [nonNullAndOrList]) fun _ _ _ _ =>
        (mrshAndOrListCopy_copied right).bind (by simp +contextual [nonNullAndOrList]) fun _ _ _ _ => ?_
      simp [Copied, nonNullAndOrList, plainAndOrList, *]

theorem mrshCommandListCopy_copied : ∀ l : CommandList, Copied nonNullList plainList
    (mrshCommandListCopy generation l) l
  | { andOrList, .. } => by
      rw [mrshCommandListCopy]
      refine (mrshAndOrListCopy_copied andOrList).bind (by simp +contextual [nonNullList]) fun _ _ _ _ => ?_
      simp [Copied, nonNullList, plainList, *]

theorem commandListArrayCopy_copied : ∀ ls : List CommandList, Copied nonNullLists plainLists
    (commandListArrayCopy generation ls) ls
  | [] => ⟨rfl, rfl, rfl⟩
  | l :: ls => by
      rw [commandListArrayCopy]
      refine (mrshCommandListCopy_copied l).bind (by simp +contextual [nonNullLists]) fun _ _ _ _ =>
        (commandListArrayCopy_copied ls).bind (by simp +contextual [nonNullLists]) fun _ _ _ _ => ?_
      simp [Copied, nonNullLists, plainLists, *]

theorem mrshProgramCopy_copied : ∀ program : Program, Copied nonNullProgram plainProgram
    (mrshProgramCopy generation program) program
  | { body } => by
      rw [mrshProgramCopy]
      refine (commandListArrayCopy_copied body).bind (by simp +contextual [nonNullProgram]) fun _ _ _ _ => ?_
      simp [Copied, nonNullProgram, plainProgram, *]

end

end

/-! ## The lines that are looked at in place

What a program expands is copied before, but for the patterns of a case item. Only there the
line of `$LINENO` is that of the program. The argument of a parameter is copied everywhere.
-/

mutual

/-- The lines of the `$LINENO` that are expanded where they stand. -/
def wordLines : Word → List Nat
  | .parameter wp => if wp.name = "LINENO".toList then [wp.dollarPos.line] else []
  | .command (some { body }) _ _ => listsLines body
  | .arithmetic body => wordLines body
  | .list children _ _ _ => wordsLines children
  | _ => []

def wordsLines : List Word → List Nat
  | [] => []
  | word :: words => wordLines word ++ wordsLines words

def caseItemsLines : List CaseItem → List Nat
  | [] => []
  | { patterns, body, .. } :: items => wordsLines patterns ++ listsLines body ++ caseItemsLines items

def commandLines : Command → List Nat
  | .braceGroup { body, .. } => listsLines body
  | .subshell { body, .. } => listsLines body
  | .ifClause { condition, body, elsePart := none, .. } => listsLines condition ++ listsLines body
  | .ifClause { condition, body, elsePart := some elsePart, .. } =>
      listsLines condition ++ listsLines body ++ commandLines elsePart
  | .forClause { body, .. } => listsLines body
  | .loopClause { condition, body, .. } => listsLines condition ++ listsLines body
  | .caseClause { items, .. } => caseItemsLines items
  | _ => []

def commandsLines : List Command → List Nat
  | [] => []
  | cmd :: cmds => commandLines cmd ++ commandsLines cmds

def andOrListLines : AndOrList → List Nat
  | .pipeline { commands, .. } => commandsLines commands
  | .binop _ left right _ => andOrListLines left ++ andOrListLines right

def listsLines : List CommandList → List Nat
  | [] => []
  | { andOrList, .. } :: ls => andOrListLines andOrList ++ listsLines ls

end

def treeLines (program : Program) : List Nat := listsLines program.body

/-- As many lines, none of which is set. -/
def unlined (lines : List Nat) : List Nat := lines.map fun _ => 0

@[simp] theorem unlined_append (first second : List Nat) :
    unlined (first ++ second) = unlined first ++ unlined second :=
  List.map_append

theorem unlined_eq_iff (lines : List Nat) : unlined lines = lines ↔ ∀ line ∈ lines, line = 0 := by
  induction lines with
  | nil => simp [unlined]
  | cons line lines ih => simpa [unlined, eq_comm (a := 0)] using fun _ => ih

mutual

theorem plainWord_lines : ∀ word : Word, wordLines (plainWord word) = unlined (wordLines word)
  | .string _ _ _ _ => rfl
  | .parameter { name, arg := none, .. } => by
      simp only [plainWord, plainParameter, wordLines]
      split <;> rfl
  | .parameter { name, arg := some arg, .. } => by
      simp only [plainWord, plainParameter, wordLines]
      split <;> rfl
  | .command none _ _ => rfl
  | .command (some { body }) _ _ => plainLists_lines body
  | .arithmetic body => plainWord_lines body
  | .list children _ _ _ => plainWords_lines children
  | .null => rfl

theorem plainWords_lines : ∀ words : List Word, wordsLines (plainWords words) = unlined (wordsLines words)
  | [] => rfl
  | word :: words => by simp [plainWords, wordsLines, plainWord_lines word, plainWords_lines words]

theorem plainCaseItems_lines : ∀ items : List CaseItem,
    caseItemsLines (plainCaseItems items) = unlined (caseItemsLines items)
  | [] => rfl
  | { patterns, body, .. } :: items => by
      simp [plainCaseItems, plainCaseItem, caseItemsLines, plainWords_lines patterns, plainLists_lines body,
        plainCaseItems_lines items]

theorem plainCommand_lines : ∀ cmd : Command, commandLines (plainCommand cmd) = unlined (commandLines cmd)
  | .simpleCommand { name := none, .. } => rfl
  | .simpleCommand { name := some _, .. } => rfl
  | .braceGroup { body, .. } => plainLists_lines body
  | .subshell { body, .. } => plainLists_lines body
  | .ifClause { condition, body, elsePart := none, .. } => by
      simp [plainCommand, plainIfClause, commandLines, plainLists_lines condition, plainLists_lines body]
  | .ifClause { condition, body, elsePart := some elsePart, .. } => by
      simp [plainCommand, plainIfClause, commandLines, plainLists_lines condition, plainLists_lines body,
        plainCommand_lines elsePart]
  | .forClause { body, .. } => plainLists_lines body
  | .loopClause { condition, body, .. } => by
      simp [plainCommand, plainLoopClause, commandLines, plainLists_lines condition, plainLists_lines body]
  | .caseClause { items, .. } => plainCaseItems_lines items
  | .functionDefinition _ => rfl

theorem plainCommands_lines : ∀ cmds : List Command, commandsLines (plainCommands cmds) = unlined (commandsLines cmds)
  | [] => rfl
  | cmd :: cmds => by simp [plainCommands, commandsLines, plainCommand_lines cmd, plainCommands_lines cmds]

theorem plainAndOrList_lines : ∀ list : AndOrList,
    andOrListLines (plainAndOrList list) = unlined (andOrListLines list)
  | .pipeline { commands, .. } => plainCommands_lines commands
  | .binop _ left right _ => by
      simp [plainAndOrList, andOrListLines, plainAndOrList_lines left, plainAndOrList_lines right]

theorem plainLists_lines : ∀ lists : List CommandList, listsLines (plainLists lists) = unlined (listsLines lists)
  | [] => rfl
  | { andOrList, .. } :: ls => by
      simp [plainLists, plainList, listsLines, plainAndOrList_lines andOrList, plainLists_lines ls]

end

theorem plainProgram_lines (program : Program) : treeLines (plainProgram program) = unlined (treeLines program) := by
  obtain ⟨body⟩ := program
  exact plainLists_lines body

section

variable (generation : Nat)

/-- No line is set in what the copy looks at. -/
def CopiesLines {α : Type} (lines : α → List Nat) (copy : Option α) : Prop :=
  ∀ found, copy = some found → unlined (lines found) = lines found

theorem CopiesLines.bind {α β : Type} {lines : α → List Nat} {copy : Option α} {whole : β → List Nat}
    {next : α → Option β} (copies : CopiesLines lines copy)
    (rest : ∀ found, unlined (lines found) = lines found → CopiesLines whole (next found)) :
    CopiesLines whole (copy >>= next) := by
  intro result ended
  obtain ⟨found, copied, ended⟩ := Option.bind_eq_some_iff.mp ended
  exact rest found (copies found copied) result ended

theorem CopiesLines.skip {α β : Type} {copy : Option α} {whole : β → List Nat} {next : α → Option β}
    (rest : ∀ found, CopiesLines whole (next found)) : CopiesLines whole (copy >>= next) := by
  intro result ended
  obtain ⟨found, _, ended⟩ := Option.bind_eq_some_iff.mp ended
  exact rest found result ended

theorem CopiesLines.pure {α : Type} {lines : α → List Nat} {found : α} (unset : unlined (lines found) = lines found) :
    CopiesLines lines (some found) := by
  rintro _ ⟨⟩
  exact unset

mutual

theorem mrshWordCopy_lines : ∀ word : Word, CopiesLines wordLines (mrshWordCopy generation word)
  | .string _ _ _ _ => .pure rfl
  | .parameter { name, arg := none, .. } => .pure (by rw [wordLines]; split <;> rfl)
  | .parameter { name, arg := some arg, .. } => by
      rw [mrshWordCopy, wordParameterCopy, bind_assoc]
      exact .skip fun _ => .pure (by rw [wordLines]; split <;> rfl)
  | .command none _ _ => fun _ missing => by cases missing
  | .command (some { body }) _ _ => by
      rw [mrshWordCopy, mrshProgramCopy, bind_assoc]
      exact (commandListArrayCopy_lines body).bind fun _ unset => .pure unset
  | .arithmetic body => by
      rw [mrshWordCopy]
      exact (mrshWordCopy_lines body).bind fun _ unset => .pure unset
  | .list children _ _ _ => by
      rw [mrshWordCopy]
      exact (wordArrayCopy_lines children).bind fun _ unset => .pure unset
  | .null => fun _ missing => by cases missing

theorem wordArrayCopy_lines : ∀ words : List Word, CopiesLines wordsLines (wordArrayCopy generation words)
  | [] => .pure rfl
  | word :: words => by
      rw [wordArrayCopy]
      refine (mrshWordCopy_lines word).bind fun _ unset => (wordArrayCopy_lines words).bind fun _ unsetRest => .pure ?_
      rw [wordsLines, unlined_append, unset, unsetRest]

theorem caseItemArrayCopy_lines : ∀ items : List CaseItem,
    CopiesLines caseItemsLines (caseItemArrayCopy generation items)
  | [] => .pure rfl
  | { patterns, body, .. } :: items => by
      rw [caseItemArrayCopy, caseItemCopy, bind_assoc]
      refine (wordArrayCopy_lines patterns).bind fun _ unset => ?_
      rw [bind_assoc]
      refine (commandListArrayCopy_lines body).bind fun _ unsetBody => ?_
      refine (caseItemArrayCopy_lines items).bind fun _ unsetRest => .pure ?_
      rw [caseItemsLines, unlined_append, unlined_append, unset, unsetBody, unsetRest]

theorem mrshCommandCopy_lines : ∀ cmd : Command, CopiesLines commandLines (mrshCommandCopy generation cmd)
  | .simpleCommand sc => .skip fun _ => .pure rfl
  | .braceGroup { body, .. } => by
      rw [mrshCommandCopy, braceGroupCopy, bind_assoc]
      exact (commandListArrayCopy_lines body).bind fun _ unset => .pure unset
  | .subshell { body, .. } => by
      rw [mrshCommandCopy, subshellCopy, bind_assoc]
      exact (commandListArrayCopy_lines body).bind fun _ unset => .pure unset
  | .ifClause { condition, body, elsePart := none, .. } => by
      rw [mrshCommandCopy, ifClauseCopy, bind_assoc]
      refine (commandListArrayCopy_lines condition).bind fun _ unset => ?_
      rw [bind_assoc]
      refine (commandListArrayCopy_lines body).bind fun _ unsetBody => .pure ?_
      rw [commandLines, unlined_append, unset, unsetBody]
  | .ifClause { condition, body, elsePart := some elsePart, .. } => by
      rw [mrshCommandCopy, ifClauseCopy, bind_assoc]
      refine (commandListArrayCopy_lines condition).bind fun _ unset => ?_
      rw [bind_assoc]
      refine (commandListArrayCopy_lines body).bind fun _ unsetBody => ?_
      rw [bind_assoc]
      refine (mrshCommandCopy_lines elsePart).bind fun _ unsetElse => .pure ?_
      rw [commandLines, unlined_append, unlined_append, unset, unsetBody, unsetElse]
  | .forClause { body, .. } => by
      rw [mrshCommandCopy, forClauseCopy, bind_assoc]
      refine .skip fun _ => ?_
      rw [bind_assoc]
      exact (commandListArrayCopy_lines body).bind fun _ unset => .pure unset
  | .loopClause { condition, body, .. } => by
      rw [mrshCommandCopy, loopClauseCopy, bind_assoc]
      refine (commandListArrayCopy_lines condition).bind fun _ unset => ?_
      rw [bind_assoc]
      refine (commandListArrayCopy_lines body).bind fun _ unsetBody => .pure ?_
      rw [commandLines, unlined_append, unset, unsetBody]
  | .caseClause { items, .. } => by
      rw [mrshCommandCopy, caseClauseCopy, bind_assoc]
      refine (caseItemArrayCopy_lines items).bind fun _ unset => ?_
      rw [bind_assoc]
      exact .skip fun _ => .pure unset
  | .functionDefinition fd => .skip fun _ => .pure rfl

theorem commandArrayCopy_lines : ∀ cmds : List Command, CopiesLines commandsLines (commandArrayCopy generation cmds)
  | [] => .pure rfl
  | cmd :: cmds => by
      rw [commandArrayCopy]
      refine (mrshCommandCopy_lines cmd).bind fun _ unset => (commandArrayCopy_lines cmds).bind
        fun _ unsetRest => .pure ?_
      rw [commandsLines, unlined_append, unset, unsetRest]

theorem andOrListCopy_lines : ∀ list : AndOrList, CopiesLines andOrListLines (mrshAndOrListCopy generation list)
  | .pipeline { commands, .. } => by
      rw [mrshAndOrListCopy, pipelineCopy, bind_assoc]
      exact (commandArrayCopy_lines commands).bind fun _ unset => .pure unset
  | .binop _ left right _ => by
      rw [mrshAndOrListCopy]
      refine (andOrListCopy_lines left).bind fun _ unset => (andOrListCopy_lines right).bind
        fun _ unsetRight => .pure ?_
      rw [andOrListLines, unlined_append, unset, unsetRight]

theorem commandListArrayCopy_lines : ∀ lists : List CommandList,
    CopiesLines listsLines (commandListArrayCopy generation lists)
  | [] => .pure rfl
  | { andOrList, .. } :: ls => by
      rw [commandListArrayCopy, mrshCommandListCopy, bind_assoc]
      refine (andOrListCopy_lines andOrList).bind fun _ unset => ?_
      refine (commandListArrayCopy_lines ls).bind fun _ unsetRest => .pure ?_
      rw [listsLines, unlined_append, unset, unsetRest]

end

end

end Mrsh
