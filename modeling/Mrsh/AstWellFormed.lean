import Mrsh.Ast

namespace Mrsh

/-! # Well-formed trees

A tree without a NULL pointer where the code that runs it expects a word, and
without an empty pipeline. The lines of here-documents are part of the tree; the
redirections they belong to are found by their addresses.
-/

mutual

def wellFormedWord : Word → Bool
  | .string _ _ _ _ => true
  | .parameter wp => wellFormedParameter wp
  | .command none _ _ => true
  | .command (some program) _ _ => wellFormedProgram program
  | .arithmetic body => wellFormedWord body
  | .list children _ _ _ => wellFormedWords children
  | .null => false

def wellFormedWords : List Word → Bool
  | [] => true
  | word :: words => wellFormedWord word && wellFormedWords words

def wellFormedParameter : WordParameter → Bool
  | { arg := none, .. } => true
  | { arg := some arg, .. } => wellFormedWord arg

def wellFormedRedirect : IoRedirect → Bool
  | { name, hereDocument, .. } => wellFormedWord name && wellFormedWords hereDocument

def wellFormedRedirects : List IoRedirect → Bool
  | [] => true
  | redir :: redirs => wellFormedRedirect redir && wellFormedRedirects redirs

def wellFormedAssignment : Assignment → Bool
  | { value, .. } => wellFormedWord value

def wellFormedAssignments : List Assignment → Bool
  | [] => true
  | assign :: assigns => wellFormedAssignment assign && wellFormedAssignments assigns

def wellFormedSimpleCommand : SimpleCommand → Bool
  | { name := none, arguments, ioRedirects, assignments } =>
      wellFormedWords arguments && wellFormedRedirects ioRedirects && wellFormedAssignments assignments
  | { name := some name, arguments, ioRedirects, assignments } =>
      wellFormedWord name && wellFormedWords arguments && wellFormedRedirects ioRedirects &&
        wellFormedAssignments assignments

def wellFormedBraceGroup : BraceGroup → Bool
  | { body, .. } => wellFormedLists body

def wellFormedSubshell : Subshell → Bool
  | { body, .. } => wellFormedLists body

def wellFormedIfClause : IfClause → Bool
  | { condition, body, elsePart := none, .. } => wellFormedLists condition && wellFormedLists body
  | { condition, body, elsePart := some elsePart, .. } =>
      wellFormedLists condition && wellFormedLists body && wellFormedCommand elsePart

def wellFormedForClause : ForClause → Bool
  | { wordList, body, .. } => wellFormedWords wordList && wellFormedLists body

def wellFormedLoopClause : LoopClause → Bool
  | { condition, body, .. } => wellFormedLists condition && wellFormedLists body

def wellFormedCaseItem : CaseItem → Bool
  | { patterns, body, .. } => wellFormedWords patterns && wellFormedLists body

def wellFormedCaseItems : List CaseItem → Bool
  | [] => true
  | item :: items => wellFormedCaseItem item && wellFormedCaseItems items

def wellFormedCaseClause : CaseClause → Bool
  | { word, items, .. } => wellFormedWord word && wellFormedCaseItems items

def wellFormedFunctionDefinition : FunctionDefinition → Bool
  | { body, ioRedirects, .. } => wellFormedCommand body && wellFormedRedirects ioRedirects

def wellFormedCommand : Command → Bool
  | .simpleCommand sc => wellFormedSimpleCommand sc
  | .braceGroup bg => wellFormedBraceGroup bg
  | .subshell ss => wellFormedSubshell ss
  | .ifClause ic => wellFormedIfClause ic
  | .forClause fc => wellFormedForClause fc
  | .loopClause lc => wellFormedLoopClause lc
  | .caseClause cc => wellFormedCaseClause cc
  | .functionDefinition fd => wellFormedFunctionDefinition fd

def wellFormedCommands : List Command → Bool
  | [] => true
  | cmd :: cmds => wellFormedCommand cmd && wellFormedCommands cmds

def wellFormedPipeline : Pipeline → Bool
  | { commands, .. } => !commands.isEmpty && wellFormedCommands commands

def wellFormedAndOrList : AndOrList → Bool
  | .pipeline pl => wellFormedPipeline pl
  | .binop _ left right _ => wellFormedAndOrList left && wellFormedAndOrList right

def wellFormedList : CommandList → Bool
  | { andOrList, .. } => wellFormedAndOrList andOrList

def wellFormedLists : List CommandList → Bool
  | [] => true
  | l :: ls => wellFormedList l && wellFormedLists ls

def wellFormedProgram : Program → Bool
  | { body } => wellFormedLists body

end

/-! ## The redirections of a tree

Redirections in the lines of a here-document are not counted.
-/

mutual

def addressesWord : Word → List Address
  | .string _ _ _ _ => []
  | .parameter wp => addressesParameter wp
  | .command none _ _ => []
  | .command (some program) _ _ => addressesProgram program
  | .arithmetic body => addressesWord body
  | .list children _ _ _ => addressesWords children
  | .null => []

def addressesWords : List Word → List Address
  | [] => []
  | word :: words => addressesWord word ++ addressesWords words

def addressesParameter : WordParameter → List Address
  | { arg := none, .. } => []
  | { arg := some arg, .. } => addressesWord arg

def addressesRedirect : IoRedirect → List Address
  | { addr, name, .. } => addr :: addressesWord name

def addressesRedirects : List IoRedirect → List Address
  | [] => []
  | redir :: redirs => addressesRedirect redir ++ addressesRedirects redirs

def addressesAssignment : Assignment → List Address
  | { value, .. } => addressesWord value

def addressesAssignments : List Assignment → List Address
  | [] => []
  | assign :: assigns => addressesAssignment assign ++ addressesAssignments assigns

def addressesSimpleCommand : SimpleCommand → List Address
  | { name := none, arguments, ioRedirects, assignments } =>
      addressesWords arguments ++ addressesRedirects ioRedirects ++ addressesAssignments assignments
  | { name := some name, arguments, ioRedirects, assignments } =>
      addressesWord name ++ addressesWords arguments ++ addressesRedirects ioRedirects ++
        addressesAssignments assignments

def addressesBraceGroup : BraceGroup → List Address
  | { body, .. } => addressesLists body

def addressesSubshell : Subshell → List Address
  | { body, .. } => addressesLists body

def addressesIfClause : IfClause → List Address
  | { condition, body, elsePart := none, .. } => addressesLists condition ++ addressesLists body
  | { condition, body, elsePart := some elsePart, .. } =>
      addressesLists condition ++ addressesLists body ++ addressesCommand elsePart

def addressesForClause : ForClause → List Address
  | { wordList, body, .. } => addressesWords wordList ++ addressesLists body

def addressesLoopClause : LoopClause → List Address
  | { condition, body, .. } => addressesLists condition ++ addressesLists body

def addressesCaseItem : CaseItem → List Address
  | { patterns, body, .. } => addressesWords patterns ++ addressesLists body

def addressesCaseItems : List CaseItem → List Address
  | [] => []
  | item :: items => addressesCaseItem item ++ addressesCaseItems items

def addressesCaseClause : CaseClause → List Address
  | { word, items, .. } => addressesWord word ++ addressesCaseItems items

def addressesFunctionDefinition : FunctionDefinition → List Address
  | { body, ioRedirects, .. } => addressesCommand body ++ addressesRedirects ioRedirects

def addressesCommand : Command → List Address
  | .simpleCommand sc => addressesSimpleCommand sc
  | .braceGroup bg => addressesBraceGroup bg
  | .subshell ss => addressesSubshell ss
  | .ifClause ic => addressesIfClause ic
  | .forClause fc => addressesForClause fc
  | .loopClause lc => addressesLoopClause lc
  | .caseClause cc => addressesCaseClause cc
  | .functionDefinition fd => addressesFunctionDefinition fd

def addressesCommands : List Command → List Address
  | [] => []
  | cmd :: cmds => addressesCommand cmd ++ addressesCommands cmds

def addressesPipeline : Pipeline → List Address
  | { commands, .. } => addressesCommands commands

def addressesAndOrList : AndOrList → List Address
  | .pipeline pl => addressesPipeline pl
  | .binop _ left right _ => addressesAndOrList left ++ addressesAndOrList right

def addressesList : CommandList → List Address
  | { andOrList, .. } => addressesAndOrList andOrList

def addressesLists : List CommandList → List Address
  | [] => []
  | l :: ls => addressesList l ++ addressesLists ls

def addressesProgram : Program → List Address
  | { body } => addressesLists body

end

/-! ## Here-documents -/

theorem wellFormedWords_append (first second : List Word) :
    wellFormedWords (first ++ second) = (wellFormedWords first && wellFormedWords second) := by
  induction first with
  | nil => rfl
  | cons word words ih => simp [wellFormedWords, ih, Bool.and_assoc]

/-- Whether the trees that two parts are filled into are well-formed, if each of them is
up to its lines. -/
theorem and_and_all_append (first second : Bool) (left right : List Address) (good : Address → Bool) :
    ((first && left.all good) && (second && right.all good)) = ((first && second) && (left ++ right).all good) := by
  rw [List.all_append]
  cases first <;> cases second <;> simp

section

variable (lines : Address → List Word)

mutual

/-- A filled tree is well-formed if the tree and the lines that were added to it are. -/
theorem wellFormed_fillWord : ∀ word : Word, wellFormedWord (fillWord lines word) =
    (wellFormedWord word && (addressesWord (fillWord lines word)).all fun addr => wellFormedWords (lines addr))
  | .string _ _ _ _ => rfl
  | .parameter wp => wellFormed_fillParameter wp
  | .command none _ _ => rfl
  | .command (some program) _ _ => wellFormed_fillProgram program
  | .arithmetic body => wellFormed_fillWord body
  | .list children _ _ _ => wellFormed_fillWords children
  | .null => rfl

theorem wellFormed_fillWords : ∀ words : List Word, wellFormedWords (fillWords lines words) =
    (wellFormedWords words && (addressesWords (fillWords lines words)).all fun addr => wellFormedWords (lines addr))
  | [] => rfl
  | word :: words => by
      rw [fillWords, wellFormedWords, wellFormed_fillWord word, wellFormed_fillWords words, and_and_all_append]
      rfl

theorem wellFormed_fillParameter : ∀ wp : WordParameter, wellFormedParameter (fillParameter lines wp) =
    (wellFormedParameter wp && (addressesParameter (fillParameter lines wp)).all
      fun addr => wellFormedWords (lines addr))
  | { arg := none, .. } => rfl
  | { arg := some arg, .. } => wellFormed_fillWord arg

theorem wellFormed_fillRedirect : ∀ redir : IoRedirect, wellFormedRedirect (fillRedirect lines redir) =
    (wellFormedRedirect redir &&
      (addressesRedirect (fillRedirect lines redir)).all fun addr => wellFormedWords (lines addr))
  | { addr, name, hereDocument, .. } => by
      simp only [fillRedirect, wellFormedRedirect, addressesRedirect, wellFormedWords_append, List.all_cons,
        wellFormed_fillWord name]
      cases wellFormedWords hereDocument <;> cases wellFormedWords (lines addr) <;> simp

theorem wellFormed_fillRedirects : ∀ redirs : List IoRedirect, wellFormedRedirects (fillRedirects lines redirs) =
    (wellFormedRedirects redirs &&
      (addressesRedirects (fillRedirects lines redirs)).all fun addr => wellFormedWords (lines addr))
  | [] => rfl
  | redir :: redirs => by
      rw [fillRedirects, wellFormedRedirects, wellFormed_fillRedirect redir, wellFormed_fillRedirects redirs,
        and_and_all_append]
      rfl

theorem wellFormed_fillAssignment : ∀ assign : Assignment, wellFormedAssignment (fillAssignment lines assign) =
    (wellFormedAssignment assign &&
      (addressesAssignment (fillAssignment lines assign)).all fun addr => wellFormedWords (lines addr))
  | { value, .. } => wellFormed_fillWord value

theorem wellFormed_fillAssignments : ∀ assigns :
    List Assignment, wellFormedAssignments (fillAssignments lines assigns) =
    (wellFormedAssignments assigns &&
      (addressesAssignments (fillAssignments lines assigns)).all fun addr => wellFormedWords (lines addr))
  | [] => rfl
  | assign :: assigns => by
      rw [fillAssignments, wellFormedAssignments, wellFormed_fillAssignment assign,
        wellFormed_fillAssignments assigns, and_and_all_append]
      rfl

theorem wellFormed_fillSimpleCommand : ∀ sc : SimpleCommand, wellFormedSimpleCommand (fillSimpleCommand lines sc) =
    (wellFormedSimpleCommand sc &&
      (addressesSimpleCommand (fillSimpleCommand lines sc)).all fun addr => wellFormedWords (lines addr))
  | { name := none, arguments, ioRedirects, assignments } => by
      simp only [fillSimpleCommand, wellFormedSimpleCommand, addressesSimpleCommand, wellFormed_fillWords arguments,
        wellFormed_fillRedirects ioRedirects, wellFormed_fillAssignments assignments, and_and_all_append]
  | { name := some name, arguments, ioRedirects, assignments } => by
      simp only [fillSimpleCommand, wellFormedSimpleCommand, addressesSimpleCommand, wellFormed_fillWord name,
        wellFormed_fillWords arguments, wellFormed_fillRedirects ioRedirects, wellFormed_fillAssignments assignments,
        and_and_all_append]

theorem wellFormed_fillBraceGroup : ∀ bg : BraceGroup, wellFormedBraceGroup (fillBraceGroup lines bg) =
    (wellFormedBraceGroup bg &&
      (addressesBraceGroup (fillBraceGroup lines bg)).all fun addr => wellFormedWords (lines addr))
  | { body, .. } => wellFormed_fillLists body

theorem wellFormed_fillSubshell : ∀ ss : Subshell, wellFormedSubshell (fillSubshell lines ss) =
    (wellFormedSubshell ss &&
      (addressesSubshell (fillSubshell lines ss)).all fun addr => wellFormedWords (lines addr))
  | { body, .. } => wellFormed_fillLists body

theorem wellFormed_fillIfClause : ∀ ic : IfClause, wellFormedIfClause (fillIfClause lines ic) =
    (wellFormedIfClause ic &&
      (addressesIfClause (fillIfClause lines ic)).all fun addr => wellFormedWords (lines addr))
  | { condition, body, elsePart := none, .. } => by
      simp only [fillIfClause, wellFormedIfClause, addressesIfClause, wellFormed_fillLists condition,
        wellFormed_fillLists body, and_and_all_append]
  | { condition, body, elsePart := some elsePart, .. } => by
      simp only [fillIfClause, wellFormedIfClause, addressesIfClause, wellFormed_fillLists condition,
        wellFormed_fillLists body, wellFormed_fillCommand elsePart, and_and_all_append]

theorem wellFormed_fillForClause : ∀ fc : ForClause, wellFormedForClause (fillForClause lines fc) =
    (wellFormedForClause fc &&
      (addressesForClause (fillForClause lines fc)).all fun addr => wellFormedWords (lines addr))
  | { wordList, body, .. } => by
      simp only [fillForClause, wellFormedForClause, addressesForClause, wellFormed_fillWords wordList,
        wellFormed_fillLists body,
        and_and_all_append]

theorem wellFormed_fillLoopClause : ∀ lc : LoopClause, wellFormedLoopClause (fillLoopClause lines lc) =
    (wellFormedLoopClause lc &&
      (addressesLoopClause (fillLoopClause lines lc)).all fun addr => wellFormedWords (lines addr))
  | { condition, body, .. } => by
      simp only [fillLoopClause, wellFormedLoopClause, addressesLoopClause, wellFormed_fillLists condition,
        wellFormed_fillLists body,
        and_and_all_append]

theorem wellFormed_fillCaseItem : ∀ item : CaseItem, wellFormedCaseItem (fillCaseItem lines item) =
    (wellFormedCaseItem item &&
      (addressesCaseItem (fillCaseItem lines item)).all fun addr => wellFormedWords (lines addr))
  | { patterns, body, .. } => by
      simp only [fillCaseItem, wellFormedCaseItem, addressesCaseItem, wellFormed_fillWords patterns,
        wellFormed_fillLists body,
        and_and_all_append]

theorem wellFormed_fillCaseItems : ∀ items : List CaseItem, wellFormedCaseItems (fillCaseItems lines items) =
    (wellFormedCaseItems items &&
      (addressesCaseItems (fillCaseItems lines items)).all fun addr => wellFormedWords (lines addr))
  | [] => rfl
  | item :: items => by
      rw [fillCaseItems, wellFormedCaseItems, wellFormed_fillCaseItem item, wellFormed_fillCaseItems items,
        and_and_all_append]
      rfl

theorem wellFormed_fillCaseClause : ∀ cc : CaseClause, wellFormedCaseClause (fillCaseClause lines cc) =
    (wellFormedCaseClause cc &&
      (addressesCaseClause (fillCaseClause lines cc)).all fun addr => wellFormedWords (lines addr))
  | { word, items, .. } => by
      simp only [fillCaseClause, wellFormedCaseClause, addressesCaseClause, wellFormed_fillWord word,
        wellFormed_fillCaseItems items,
        and_and_all_append]

theorem wellFormed_fillFunctionDefinition : ∀ fd :
    FunctionDefinition, wellFormedFunctionDefinition (fillFunctionDefinition lines fd) =
    (wellFormedFunctionDefinition fd &&
      (addressesFunctionDefinition (fillFunctionDefinition lines fd)).all fun addr => wellFormedWords (lines addr))
  | { body, ioRedirects, .. } => by
      simp only [fillFunctionDefinition, wellFormedFunctionDefinition, addressesFunctionDefinition,
        wellFormed_fillCommand body, wellFormed_fillRedirects ioRedirects,
        and_and_all_append]

theorem wellFormed_fillCommand : ∀ cmd : Command, wellFormedCommand (fillCommand lines cmd) =
    (wellFormedCommand cmd &&
      (addressesCommand (fillCommand lines cmd)).all fun addr => wellFormedWords (lines addr))
  | .simpleCommand sc => wellFormed_fillSimpleCommand sc
  | .braceGroup bg => wellFormed_fillBraceGroup bg
  | .subshell ss => wellFormed_fillSubshell ss
  | .ifClause ic => wellFormed_fillIfClause ic
  | .forClause fc => wellFormed_fillForClause fc
  | .loopClause lc => wellFormed_fillLoopClause lc
  | .caseClause cc => wellFormed_fillCaseClause cc
  | .functionDefinition fd => wellFormed_fillFunctionDefinition fd

theorem wellFormed_fillCommands : ∀ cmds : List Command, wellFormedCommands (fillCommands lines cmds) =
    (wellFormedCommands cmds &&
      (addressesCommands (fillCommands lines cmds)).all fun addr => wellFormedWords (lines addr))
  | [] => rfl
  | cmd :: cmds => by
      rw [fillCommands, wellFormedCommands, wellFormed_fillCommand cmd, wellFormed_fillCommands cmds,
        and_and_all_append]
      rfl

theorem wellFormed_fillPipeline : ∀ pl : Pipeline, wellFormedPipeline (fillPipeline lines pl) =
    (wellFormedPipeline pl &&
      (addressesPipeline (fillPipeline lines pl)).all fun addr => wellFormedWords (lines addr))
  | { commands, .. } => by
      have sameEmpty : (fillCommands lines commands).isEmpty = commands.isEmpty := by cases commands <;> rfl
      simp only [fillPipeline, wellFormedPipeline, addressesPipeline, wellFormed_fillCommands commands, sameEmpty,
        Bool.and_assoc]

theorem wellFormed_fillAndOrList : ∀ andOrList : AndOrList, wellFormedAndOrList (fillAndOrList lines andOrList) =
    (wellFormedAndOrList andOrList &&
      (addressesAndOrList (fillAndOrList lines andOrList)).all fun addr => wellFormedWords (lines addr))
  | .pipeline pl => wellFormed_fillPipeline pl
  | .binop _ left right _ => by
      simp only [fillAndOrList, wellFormedAndOrList, addressesAndOrList, wellFormed_fillAndOrList left,
        wellFormed_fillAndOrList right, and_and_all_append]

theorem wellFormed_fillList : ∀ l : CommandList, wellFormedList (fillList lines l) =
    (wellFormedList l && (addressesList (fillList lines l)).all fun addr => wellFormedWords (lines addr))
  | { andOrList, .. } => wellFormed_fillAndOrList andOrList

theorem wellFormed_fillLists : ∀ ls : List CommandList, wellFormedLists (fillLists lines ls) =
    (wellFormedLists ls && (addressesLists (fillLists lines ls)).all fun addr => wellFormedWords (lines addr))
  | [] => rfl
  | l :: ls => by
      rw [fillLists, wellFormedLists, wellFormed_fillList l, wellFormed_fillLists ls, and_and_all_append]
      rfl

theorem wellFormed_fillProgram : ∀ program : Program, wellFormedProgram (fillProgram lines program) =
    (wellFormedProgram program &&
      (addressesProgram (fillProgram lines program)).all fun addr => wellFormedWords (lines addr))
  | { body } => wellFormed_fillLists body

end

end

end Mrsh
