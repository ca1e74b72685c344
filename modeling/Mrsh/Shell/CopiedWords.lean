import Mrsh.AstCopy
import Mrsh.Data.RelatedRuns
import Mrsh.Shell.Task.Task

namespace Mrsh

open Mrsh.Data

/-! # Copies of words

A word is expanded after it was copied. The copy keeps what its expansion reads apart from the marks
of the strings that may be split and from the line that `$LINENO` stands for.
-/

/-! ## Words that read the same -/

/-- Two trees without NULL pointers that differ at most in what a copy loses. -/
structure SameTree {α : Type} (isNonNull : α → Bool) (plainOf : α → α) (tree other : α) : Prop where
  nonNull : isNonNull tree = true
  otherNonNull : isNonNull other = true
  plain : plainOf tree = plainOf other

/-- A copy of the program has other lines where it is looked at in place. -/
structure SameProgram (program other : Program) : Prop where
  tree : SameTree nonNullProgram plainProgram program other
  lines : treeLines program = treeLines other

/-- The argument is copied before it is expanded, and the line is that of `$LINENO` only. -/
structure SameParameter (wp other : WordParameter) : Prop where
  name : wp.name = other.name
  op : wp.op = other.op
  colon : wp.colon = other.colon
  arg : Option.Rel (SameTree nonNullWord plainWord) wp.arg other.arg
  line : wp.name = "LINENO".toList → wp.dollarPos.line = other.dollarPos.line

/-- Two words in which an expansion finds the same. The programs are run by other processes. -/
inductive SameReading : Word → Word → Prop
  | string (str : Str) (singleQuoted splitFields : Bool) (range otherRange : Range) :
      SameReading (.string str singleQuoted splitFields range) (.string str singleQuoted splitFields otherRange)
  | parameter {wp other : WordParameter} (same : SameParameter wp other) :
      SameReading (.parameter wp) (.parameter other)
  | command {program other : Program} (same : SameProgram program other)
      (backQuoted : Bool) (range otherRange : Range) :
      SameReading (.command (some program) backQuoted range) (.command (some other) backQuoted otherRange)
  | arithmetic {body other : Word} (same : SameReading body other) :
      SameReading (.arithmetic body) (.arithmetic other)
  | list {children others : List Word} (same : List.Forall₂ SameReading children others) (doubleQuoted : Bool)
      (lquotePos rquotePos otherLquotePos otherRquotePos : Position) :
      SameReading (.list children doubleQuoted lquotePos rquotePos)
        (.list others doubleQuoted otherLquotePos otherRquotePos)

/-! ## What a copy loses of a word -/

mutual

/-- No string is marked to be split, and no `$LINENO` that is looked at in place has a line. -/
def losesNothing : Word → Bool
  | .string _ _ splitFields _ => !splitFields
  | .parameter wp => wp.name != "LINENO".toList || wp.dollarPos.line == 0
  | .command none _ _ => true
  | .command (some program) _ _ => (treeLines program).all (· == 0)
  | .arithmetic body => losesNothing body
  | .list children _ _ _ => loseNothing children
  | .null => true

def loseNothing : List Word → Bool
  | [] => true
  | word :: words => losesNothing word && loseNothing words

end

section

variable (generation : Nat)

theorem mrshWordCopy_sameTree {word copy : Word} (copied : mrshWordCopy generation word = some copy) :
    SameTree nonNullWord plainWord word copy := by
  have kept := mrshWordCopy_copied generation word
  rw [copied] at kept
  exact ⟨kept.1, kept.2.1, kept.2.2.symm⟩

theorem mrshProgramCopy_sameTree {program copy : Program} (copied : mrshProgramCopy generation program = some copy) :
    SameTree nonNullProgram plainProgram program copy := by
  have kept := mrshProgramCopy_copied generation program
  rw [copied] at kept
  exact ⟨kept.1, kept.2.1, kept.2.2.symm⟩

theorem mrshProgramCopy_lines {program copy : Program} (copied : mrshProgramCopy generation program = some copy) :
    treeLines copy = unlined (treeLines copy) := by
  obtain ⟨body⟩ := program
  obtain ⟨found, bodyCopied, same⟩ := Option.bind_eq_some_iff.mp copied
  cases same
  exact (commandListArrayCopy_lines generation body found bodyCopied).symm

theorem unlinedLines_same {program other : Program} (plain : plainProgram program = plainProgram other) :
    unlined (treeLines program) = unlined (treeLines other) := by
  have lines := congrArg treeLines plain
  rwa [plainProgram_lines, plainProgram_lines] at lines

theorem mrshProgramCopy_sameProgram_iff {program copy : Program}
    (copied : mrshProgramCopy generation program = some copy) :
    SameProgram program copy ↔ (treeLines program).all (· == 0) = true := by
  have tree := mrshProgramCopy_sameTree generation copied
  have copyLines := (mrshProgramCopy_lines generation copied).trans (unlinedLines_same tree.plain).symm
  simp only [List.all_eq_true, beq_iff_eq]
  rw [← unlined_eq_iff]
  constructor
  · intro same
    exact (same.lines.trans copyLines).symm
  · intro unset
    exact ⟨tree, unset.symm.trans copyLines.symm⟩

theorem mrshWordCopy_nonNull {word : Word} (nonNull : nonNullWord word = true) :
    ∃ copy, mrshWordCopy generation word = some copy := by
  have kept := mrshWordCopy_copied generation word
  cases copied : mrshWordCopy generation word with
  | some copy => exact ⟨copy, rfl⟩
  | none =>
      rw [copied] at kept
      exact absurd nonNull (by simp [show nonNullWord word = false from kept])

theorem wordParameterCopy_same {wp copy : WordParameter} (copied : wordParameterCopy generation wp = some copy) :
    copy.name = wp.name ∧ copy.op = wp.op ∧ copy.colon = wp.colon ∧ copy.dollarPos.line = 0 ∧
      Option.Rel (SameTree nonNullWord plainWord) wp.arg copy.arg := by
  obtain ⟨name, op, colon, arg, dollarPos, nameRange, opRange, lbracePos, rbracePos⟩ := wp
  cases arg with
  | none =>
      cases copied
      exact ⟨rfl, rfl, rfl, rfl, .none⟩
  | some arg =>
      obtain ⟨found, argCopied, same⟩ := Option.bind_eq_some_iff.mp copied
      cases same
      exact ⟨rfl, rfl, rfl, rfl, .some (mrshWordCopy_sameTree generation argCopied)⟩

mutual

theorem mrshWordCopy_sameReading_iff : ∀ (word : Word) {copy : Word}, mrshWordCopy generation word = some copy →
    (SameReading word copy ↔ losesNothing word = true)
  | .string str singleQuoted splitFields range, copy, copied => by
      cases copied
      rw [losesNothing]
      constructor
      · intro same
        cases same
        rfl
      · intro unmarked
        obtain rfl : splitFields = false := by simpa using unmarked
        exact .string str singleQuoted false range .invalid
  | .parameter wp, copy, copied => by
      obtain ⟨found, parameterCopied, same⟩ := Option.bind_eq_some_iff.mp copied
      cases same
      obtain ⟨name, op, colon, line, arg⟩ := wordParameterCopy_same generation parameterCopied
      rw [losesNothing, Bool.or_eq_true, bne_iff_ne, beq_iff_eq, ← Decidable.imp_iff_not_or]
      constructor
      · intro same isLineno
        cases same with
        | parameter same => exact (same.line isLineno).trans line
      · intro unlined
        exact .parameter ⟨name.symm, op.symm, colon.symm, arg, fun isLineno => (unlined isLineno).trans line.symm⟩
  | .command none _ _, copy, copied => nomatch copied
  | .command (some program) backQuoted range, copy, copied => by
      obtain ⟨found, programCopied, same⟩ := Option.bind_eq_some_iff.mp copied
      cases same
      rw [losesNothing, ← mrshProgramCopy_sameProgram_iff generation programCopied]
      constructor
      · intro same
        cases same with
        | command same => exact same
      · intro same
        exact .command same backQuoted range .invalid
  | .arithmetic body, copy, copied => by
      obtain ⟨found, bodyCopied, same⟩ := Option.bind_eq_some_iff.mp copied
      cases same
      rw [losesNothing, ← mrshWordCopy_sameReading_iff body bodyCopied]
      constructor
      · intro same
        cases same with
        | arithmetic same => exact same
      · exact .arithmetic
  | .list children doubleQuoted lquotePos rquotePos, copy, copied => by
      obtain ⟨found, childrenCopied, same⟩ := Option.bind_eq_some_iff.mp copied
      cases same
      rw [losesNothing, ← wordArrayCopy_sameReading_iff children childrenCopied]
      constructor
      · intro same
        cases same with
        | list same => exact same
      · intro same
        exact .list same doubleQuoted lquotePos rquotePos .invalid .invalid
  | .null, copy, copied => nomatch copied

theorem wordArrayCopy_sameReading_iff : ∀ (words : List Word) {copies : List Word},
    wordArrayCopy generation words = some copies → (List.Forall₂ SameReading words copies ↔ loseNothing words = true)
  | [], copies, copied => by
      cases copied
      exact iff_of_true .nil rfl
  | word :: words, copies, copied => by
      obtain ⟨copy, wordCopied, copied⟩ := Option.bind_eq_some_iff.mp copied
      obtain ⟨rest, wordsCopied, same⟩ := Option.bind_eq_some_iff.mp copied
      cases same
      rw [List.forall₂_cons, mrshWordCopy_sameReading_iff word wordCopied,
        wordArrayCopy_sameReading_iff words wordsCopied, loseNothing, Bool.and_eq_true]

end

mutual

theorem mrshWordCopy_losesNothing : ∀ (word : Word) {copy : Word}, mrshWordCopy generation word = some copy →
    losesNothing copy = true
  | .string _ _ _ _, _, copied => by
      cases copied
      rfl
  | .parameter wp, _, copied => by
      obtain ⟨found, parameterCopied, same⟩ := Option.bind_eq_some_iff.mp copied
      cases same
      obtain ⟨_, _, _, line, _⟩ := wordParameterCopy_same generation parameterCopied
      simp [losesNothing, line]
  | .command none _ _, _, copied => nomatch copied
  | .command (some program) _ _, _, copied => by
      obtain ⟨found, programCopied, same⟩ := Option.bind_eq_some_iff.mp copied
      cases same
      have unset := (unlined_eq_iff _).mp (mrshProgramCopy_lines generation programCopied).symm
      simpa only [losesNothing, List.all_eq_true, beq_iff_eq] using unset
  | .arithmetic body, _, copied => by
      obtain ⟨found, bodyCopied, same⟩ := Option.bind_eq_some_iff.mp copied
      cases same
      rw [losesNothing, mrshWordCopy_losesNothing body bodyCopied]
  | .list children _ _ _, _, copied => by
      obtain ⟨found, childrenCopied, same⟩ := Option.bind_eq_some_iff.mp copied
      cases same
      rw [losesNothing, wordArrayCopy_losesNothing children childrenCopied]
  | .null, _, copied => nomatch copied

theorem wordArrayCopy_losesNothing : ∀ (words : List Word) {copies : List Word},
    wordArrayCopy generation words = some copies → loseNothing copies = true
  | [], _, copied => by
      cases copied
      rfl
  | word :: words, _, copied => by
      obtain ⟨copy, wordCopied, copied⟩ := Option.bind_eq_some_iff.mp copied
      obtain ⟨rest, wordsCopied, same⟩ := Option.bind_eq_some_iff.mp copied
      cases same
      rw [loseNothing, mrshWordCopy_losesNothing word wordCopied, wordArrayCopy_losesNothing words wordsCopied]
      rfl

end

end

/-! ## Words without what a copy loses -/

theorem plainParameter_same {wp other : WordParameter} (plain : plainParameter wp = plainParameter other)
    (nonNull : nonNullParameter wp = true) (otherNonNull : nonNullParameter other = true) :
    wp.name = other.name ∧ wp.op = other.op ∧ wp.colon = other.colon ∧
      Option.Rel (SameTree nonNullWord plainWord) wp.arg other.arg := by
  obtain ⟨name, op, colon, arg, _, _, _, _, _⟩ := wp
  obtain ⟨otherName, otherOp, otherColon, otherArg, _, _, _, _, _⟩ := other
  cases arg with
  | none =>
      cases otherArg with
      | none =>
          simp only [plainParameter, WordParameter.mk.injEq, and_true] at plain
          exact ⟨plain.1, plain.2.1, plain.2.2, .none⟩
      | some _ => simp [plainParameter] at plain
  | some arg =>
      cases otherArg with
      | none => simp [plainParameter] at plain
      | some otherArg =>
          simp only [plainParameter, WordParameter.mk.injEq, Option.some.injEq, and_true] at plain
          exact ⟨plain.1, plain.2.1, plain.2.2.1, .some ⟨nonNull, otherNonNull, plain.2.2.2⟩⟩

mutual

/-- Where nothing can be lost, what a copy keeps is all that is read. -/
theorem SameTree.sameReading : ∀ (word : Word) {other : Word}, SameTree nonNullWord plainWord word other →
    losesNothing word = true → losesNothing other = true → SameReading word other
  | .string str singleQuoted splitFields range, other, same, unmarked, otherUnmarked => by
      have plain := same.plain
      cases other with
      | string otherStr otherQuoted otherSplit otherRange =>
          simp only [plainWord, Word.string.injEq, and_true] at plain
          obtain ⟨rfl, rfl⟩ := plain
          obtain rfl : splitFields = false := by simpa [losesNothing] using unmarked
          obtain rfl : otherSplit = false := by simpa [losesNothing] using otherUnmarked
          exact .string _ _ _ _ _
      | command program => cases program <;> simp [plainWord] at plain
      | _ => simp [plainWord] at plain
  | .parameter wp, other, same, unlined, otherUnlined => by
      have plain := same.plain
      cases other with
      | parameter other =>
          simp only [plainWord, Word.parameter.injEq] at plain
          obtain ⟨name, op, colon, arg⟩ := plainParameter_same plain same.nonNull same.otherNonNull
          rw [losesNothing, Bool.or_eq_true, bne_iff_ne, beq_iff_eq, ← Decidable.imp_iff_not_or] at unlined otherUnlined
          exact .parameter ⟨name, op, colon, arg, fun isLineno =>
            (unlined isLineno).trans (otherUnlined (name ▸ isLineno)).symm⟩
      | command program => cases program <;> simp [plainWord] at plain
      | _ => simp [plainWord] at plain
  | .command none _ _, _, same, _, _ => nomatch same.nonNull
  | .command (some program) backQuoted range, other, same, unset, otherUnset => by
      have plain := same.plain
      cases other with
      | command otherProgram otherQuoted otherRange =>
          cases otherProgram with
          | none => simp [plainWord] at plain
          | some otherProgram =>
              simp only [plainWord, Word.command.injEq, Option.some.injEq, and_true] at plain
              obtain ⟨plain, rfl⟩ := plain
              simp only [losesNothing, List.all_eq_true, beq_iff_eq] at unset otherUnset
              rw [← unlined_eq_iff] at unset otherUnset
              exact .command ⟨⟨same.nonNull, same.otherNonNull, plain⟩,
                unset.symm.trans ((unlinedLines_same plain).trans otherUnset)⟩ _ _ _
      | _ => simp [plainWord] at plain
  | .arithmetic body, other, same, nothing, otherNothing => by
      have plain := same.plain
      cases other with
      | arithmetic otherBody =>
          simp only [plainWord, Word.arithmetic.injEq] at plain
          exact .arithmetic (SameTree.sameReading body ⟨same.nonNull, same.otherNonNull, plain⟩ nothing otherNothing)
      | command program => cases program <;> simp [plainWord] at plain
      | _ => simp [plainWord] at plain
  | .list children doubleQuoted lquotePos rquotePos, other, same, nothing, otherNothing => by
      have plain := same.plain
      cases other with
      | list others otherQuoted =>
          simp only [plainWord, Word.list.injEq, and_true] at plain
          obtain ⟨plain, rfl⟩ := plain
          exact .list (SameTree.sameReadings children ⟨same.nonNull, same.otherNonNull, plain⟩ nothing otherNothing)
            _ _ _ _ _
      | command program => cases program <;> simp [plainWord] at plain
      | _ => simp [plainWord] at plain
  | .null, _, same, _, _ => nomatch same.nonNull

theorem SameTree.sameReadings : ∀ (words : List Word) {others : List Word},
    SameTree nonNullWords plainWords words others →
    loseNothing words = true → loseNothing others = true → List.Forall₂ SameReading words others
  | [], others, same, _, _ => by
      have plain := same.plain
      cases others with
      | nil => exact .nil
      | cons other others => simp [plainWords] at plain
  | word :: words, others, same, nothing, otherNothing => by
      have plain := same.plain
      cases others with
      | nil => simp [plainWords] at plain
      | cons other others =>
          simp only [plainWords, List.cons.injEq] at plain
          obtain ⟨nonNull, nonNulls⟩ := Bool.and_eq_true_iff.mp same.nonNull
          obtain ⟨otherNonNull, otherNonNulls⟩ := Bool.and_eq_true_iff.mp same.otherNonNull
          rw [loseNothing, Bool.and_eq_true] at nothing otherNothing
          exact .cons (SameTree.sameReading word ⟨nonNull, otherNonNull, plain.1⟩ nothing.1 otherNothing.1)
            (SameTree.sameReadings words ⟨nonNulls, otherNonNulls, plain.2⟩ nothing.2 otherNothing.2)

end

theorem SameTree.copies {word other : Word} (same : SameTree nonNullWord plainWord word other) (generation : Nat) :
    ∃ copy otherCopy, mrshWordCopy generation word = some copy ∧ mrshWordCopy generation other = some otherCopy ∧
      SameReading copy otherCopy := by
  obtain ⟨copy, copied⟩ := mrshWordCopy_nonNull generation same.nonNull
  obtain ⟨otherCopy, otherCopied⟩ := mrshWordCopy_nonNull generation same.otherNonNull
  have kept := mrshWordCopy_sameTree generation copied
  have otherKept := mrshWordCopy_sameTree generation otherCopied
  have plain : plainWord copy = plainWord otherCopy := kept.plain.symm.trans (same.plain.trans otherKept.plain)
  exact ⟨copy, otherCopy, copied, otherCopied,
    SameTree.sameReading copy ⟨kept.otherNonNull, otherKept.otherNonNull, plain⟩
      (mrshWordCopy_losesNothing generation word copied) (mrshWordCopy_losesNothing generation other otherCopied)⟩

theorem SameParameter.sameTree {wp other : WordParameter} (same : SameParameter wp other) :
    SameTree nonNullParameter plainParameter wp other := by
  obtain ⟨name, op, colon, arg, _, _, _, _, _⟩ := wp
  obtain ⟨_, _, _, otherArg, _, _, _, _, _⟩ := other
  obtain ⟨rfl, rfl, rfl, args, _⟩ := same
  cases args with
  | none => exact ⟨rfl, rfl, rfl⟩
  | some same => exact ⟨same.nonNull, same.otherNonNull, by simp [plainParameter, same.plain]⟩

mutual

theorem SameReading.sameTree : ∀ (word : Word) {other : Word}, SameReading word other →
    SameTree nonNullWord plainWord word other
  | .string _ _ _ _, _, same => by
      cases same
      exact ⟨rfl, rfl, rfl⟩
  | .parameter _, _, same => by
      cases same with
      | parameter same => exact ⟨same.sameTree.nonNull, same.sameTree.otherNonNull,
        congrArg Word.parameter same.sameTree.plain⟩
  | .command _ _ _, _, same => by
      cases same with
      | command same => exact ⟨same.tree.nonNull, same.tree.otherNonNull, by simp [plainWord, same.tree.plain]⟩
  | .arithmetic body, _, same => by
      cases same with
      | arithmetic same =>
          have tree := SameReading.sameTree body same
          exact ⟨tree.nonNull, tree.otherNonNull, congrArg Word.arithmetic tree.plain⟩
  | .list children _ _ _, _, same => by
      cases same with
      | list same =>
          have tree := sameReadings_sameTree children same
          exact ⟨tree.nonNull, tree.otherNonNull, by simp [plainWord, tree.plain]⟩
  | .null, _, same => nomatch same

theorem sameReadings_sameTree : ∀ (words : List Word) {others : List Word}, List.Forall₂ SameReading words others →
    SameTree nonNullWords plainWords words others
  | [], _, same => by
      cases same
      exact ⟨rfl, rfl, rfl⟩
  | word :: words, _, same => by
      cases same with
      | cons first rest =>
          have tree := SameReading.sameTree word first
          have trees := sameReadings_sameTree words rest
          exact ⟨by simp [nonNullWords, tree.nonNull, trees.nonNull],
            by simp [nonNullWords, tree.otherNonNull, trees.otherNonNull], by simp [plainWords, tree.plain,
              trees.plain]⟩

end

/-! ## Functions of words that read the same -/

mutual

theorem mrshWordStr_same : ∀ (word : Word) {other : Word}, SameReading word other → mrshWordStr word = mrshWordStr other
  | .string _ _ _ _, _, same => by cases same; rfl
  | .parameter _, _, same => by cases same; rfl
  | .command _ _ _, _, same => by cases same; rfl
  | .arithmetic _, _, same => by cases same; rfl
  | .list children _ _ _, _, same => by
      cases same with
      | list same => exact wordsStr_same children same
  | .null, _, same => nomatch same

theorem wordsStr_same : ∀ (words : List Word) {others : List Word}, List.Forall₂ SameReading words others →
    wordsStr words = wordsStr others
  | [], _, same => by cases same; rfl
  | word :: words, _, same => by
      cases same with
      | cons first rest => rw [wordsStr, wordsStr, mrshWordStr_same word first, wordsStr_same words rest]

end

mutual

theorem isNullWord_same : ∀ (word : Word) {other : Word}, SameReading word other → isNullWord word = isNullWord other
  | .string _ _ _ _, _, same => by cases same; rfl
  | .parameter _, _, same => by cases same; rfl
  | .command _ _ _, _, same => by cases same; rfl
  | .arithmetic _, _, same => by cases same; rfl
  | .list children _ _ _, _, same => by
      cases same with
      | list same => exact areNullWords_same children same
  | .null, _, same => nomatch same

theorem areNullWords_same : ∀ (words : List Word) {others : List Word}, List.Forall₂ SameReading words others →
    areNullWords words = areNullWords others
  | [], _, same => by cases same; rfl
  | word :: words, _, same => by
      cases same with
      | cons first rest => rw [areNullWords, areNullWords, isNullWord_same word first, areNullWords_same words rest]

end

mutual

theorem needsPathnameExpansion_same : ∀ (word : Word) {other : Word}, SameReading word other →
    needsPathnameExpansion word = needsPathnameExpansion other
  | .string _ _ _ _, _, same => by cases same; rfl
  | .parameter _, _, same => by cases same; rfl
  | .command _ _ _, _, same => by cases same; rfl
  | .arithmetic _, _, same => by cases same; rfl
  | .list children _ _ _, _, same => by
      cases same with
      | list same =>
          rw [needsPathnameExpansion, needsPathnameExpansion, childrenNeedPathnameExpansion_same children same]
  | .null, _, same => nomatch same

theorem childrenNeedPathnameExpansion_same : ∀ (words : List Word) {others : List Word},
    List.Forall₂ SameReading words others → childrenNeedPathnameExpansion words = childrenNeedPathnameExpansion others
  | [], _, same => by cases same; rfl
  | word :: words, _, same => by
      cases same with
      | cons first rest =>
          rw [childrenNeedPathnameExpansion, childrenNeedPathnameExpansion, needsPathnameExpansion_same word first,
            childrenNeedPathnameExpansion_same words rest]

end

mutual

theorem wordToPatternIn_same (quoted : Bool) : ∀ (word : Word) {other : Word}, SameReading word other →
    wordToPatternIn quoted word = wordToPatternIn quoted other
  | .string _ _ _ _, _, same => by cases same; rfl
  | .parameter _, _, same => by cases same; rfl
  | .command _ _ _, _, same => by cases same; rfl
  | .arithmetic _, _, same => by cases same; rfl
  | .list children _ _ _, _, same => by
      cases same with
      | list same => exact wordsToPattern_same _ children same
  | .null, _, same => nomatch same

theorem wordsToPattern_same (quoted : Bool) : ∀ (words : List Word) {others : List Word},
    List.Forall₂ SameReading words others → wordsToPattern quoted words = wordsToPattern quoted others
  | [], _, same => by cases same; rfl
  | word :: words, _, same => by
      cases same with
      | cons first rest =>
          rw [wordsToPattern, wordsToPattern, wordToPatternIn_same quoted word first,
            wordsToPattern_same quoted words rest]

end

theorem wordToPattern_same {word other : Word} (same : SameReading word other) :
    wordToPattern word = wordToPattern other := by
  rw [wordToPattern, wordToPattern, needsPathnameExpansion_same word same, wordToPatternIn_same false word same]

mutual

theorem markWordSplitFields_same : ∀ (word : Word) {other : Word}, SameReading word other →
    SameReading (markWordSplitFields word) (markWordSplitFields other)
  | .string _ _ _ _, _, same => by cases same; exact .string _ _ _ _ _
  | .parameter _, _, same => by cases same with | parameter same => exact .parameter same
  | .command _ _ _, _, same => by cases same with | command same => exact .command same _ _ _
  | .arithmetic _, _, same => by cases same with | arithmetic same => exact .arithmetic same
  | .list children _ _ _, _, same => by
      cases same with
      | list same => exact .list (markWordsSplitFields_same children same) _ _ _ _ _
  | .null, _, same => nomatch same

theorem markWordsSplitFields_same : ∀ (words : List Word) {others : List Word}, List.Forall₂ SameReading words others →
    List.Forall₂ SameReading (markWordsSplitFields words) (markWordsSplitFields others)
  | [], _, same => by cases same; exact .nil
  | word :: words, _, same => by
      cases same with
      | cons first rest => exact .cons (markWordSplitFields_same word first) (markWordsSplitFields_same words rest)

end

theorem isAtSign_same {word other : Word} (same : SameReading word other) : isAtSign word = isAtSign other := by
  cases same with
  | parameter same => rw [isAtSign, isAtSign, same.name]
  | _ => rfl

section

variable (home : Option Str) (getpwnam : Str → Option Str)

theorem expandTildeColons_same (last : Bool) (fuel : Nat) (str : Str) :
    ∀ word ∈ (expandTildeColons home getpwnam last fuel str).1, SameReading word word := by
  induction fuel generalizing str with
  | zero => simp [expandTildeColons]
  | succ fuel ih =>
      rw [expandTildeColons]
      split
      · intro word member
        simp only [List.cons_append, List.mem_cons, List.mem_append] at member
        rcases member with rfl | member | member
        · exact .string _ _ _ _ _
        · split at member
          · obtain rfl := List.mem_singleton.mp member
            exact .string _ _ _ _ _
          · cases member
        · exact ih _ word member
      · simp

theorem expandTildeIn_string (assignment first last : Bool) (str : Str) :
    ∃ (words : List Word) (rest : Str), (∀ word ∈ words, SameReading word word) ∧ ∀ splitFields range,
      expandTildeIn home getpwnam assignment first last (.string str false splitFields range) =
        if words.isEmpty then .string str false splitFields range
        else mrshWordListCreate (words ++ [mrshWordStringCreate rest false]) false := by
  let colons (text : Str) : List Word × Str :=
    if assignment then expandTildeColons home getpwnam last (text.length + 1) text else ([], text)
  have colonsSame : ∀ text, ∀ word ∈ (colons text).1, SameReading word word := by
    intro text word member
    simp only [colons] at member
    split at member
    · exact expandTildeColons_same home getpwnam last _ _ word member
    · cases member
  cases found : if first then expandTildeAt home getpwnam str last else none with
  | none => exact ⟨(colons str).1, (colons str).2, colonsSame str, fun _ _ => by rw [expandTildeIn, found]; rfl⟩
  | some tilde =>
      obtain ⟨dir, offset⟩ := tilde
      have dirSame : SameReading (mrshWordStringCreate dir true) (mrshWordStringCreate dir true) := .string _ _ _ _ _
      exact ⟨_, _, List.forall_mem_cons.mpr ⟨dirSame, colonsSame (str.drop offset)⟩, fun _ _ => by
        rw [expandTildeIn, found]
        rfl⟩

mutual

theorem expandTildeIn_sameReading (assignment first last : Bool) :
    ∀ (word : Word) {other : Word}, SameReading word other →
    SameReading (expandTildeIn home getpwnam assignment first last word)
      (expandTildeIn home getpwnam assignment first last other)
  | .string str true splitFields range, _, same => by
      cases same
      exact .string _ _ _ _ _
  | .string str false splitFields range, _, same => by
      cases same
      obtain ⟨words, rest, wordsSame, expanded⟩ := expandTildeIn_string home getpwnam assignment first last str
      rw [expanded, expanded]
      split
      · exact .string _ _ _ _ _
      · exact .list (List.rel_append (List.forall₂_same.mpr wordsSame) (.cons (.string _ _ _ _ _) .nil)) _ _ _ _ _
  | .parameter _, _, same => by cases same with | parameter same => exact .parameter same
  | .command _ _ _, _, same => by cases same with | command same => exact .command same _ _ _
  | .arithmetic _, _, same => by cases same with | arithmetic same => exact .arithmetic same
  | .list children true _ _, _, same => by cases same with | list same => exact .list same _ _ _ _ _
  | .list children false _ _, _, same => by
      cases same with
      | list same => exact .list (expandTildeChildren_sameReading assignment first last children same) _ _ _ _ _
  | .null, _, same => nomatch same

theorem expandTildeChildren_sameReading (assignment first last : Bool) : ∀ (words : List Word) {others : List Word},
    List.Forall₂ SameReading words others →
    List.Forall₂ SameReading (expandTildeChildren home getpwnam assignment first last words)
      (expandTildeChildren home getpwnam assignment first last others)
  | [], _, same => by cases same; exact .nil
  | word :: words, _, same => by
      cases same with
      | @cons _ other _ others head rest =>
          have isLast : words.isEmpty = others.isEmpty := by cases rest <;> rfl
          rw [expandTildeChildren, expandTildeChildren, isLast]
          exact .cons (expandTildeIn_sameReading assignment first _ word head)
            (expandTildeChildren_sameReading assignment false last words rest)

end

end

/-! ## Field splitting -/

/-- The splitter is in the same state, up to words that read the same. -/
structure SameSplit (data other : SplitFieldsData) : Prop where
  fields : List.Forall₂ SameReading data.fields other.fields
  curField : Option.Rel (List.Forall₂ SameReading) data.curField other.curField
  ifs : data.ifs = other.ifs
  ifsNonSpace : data.ifsNonSpace = other.ifsNonSpace
  inIfs : data.inIfs = other.inIfs
  inIfsNonSpace : data.inIfsNonSpace = other.inIfsNonSpace

theorem children_same {children others : Option (List Word)}
    (same : Option.Rel (List.Forall₂ SameReading) children others) :
    List.Forall₂ SameReading (children.getD []) (others.getD []) := by
  cases same with
  | none => exact .nil
  | some same => exact same

theorem field_same {children others : Option (List Word)}
    (same : Option.Rel (List.Forall₂ SameReading) children others) :
    List.Forall₂ SameReading (children.map (mrshWordListCreate · false)).toList
      (others.map (mrshWordListCreate · false)).toList := by
  cases same with
  | none => exact .nil
  | some same => exact .cons (.list same _ _ _ _ _) .nil

namespace SameSplit

variable {data other : SplitFieldsData}

theorem addToCurField (same : SameSplit data other) {word otherWord : Word} (sameWord : SameReading word otherWord) :
    SameSplit (addToCurField data word) (addToCurField other otherWord) :=
  ⟨same.fields, .some (List.rel_append (children_same same.curField) (.cons sameWord .nil)), same.ifs, same.ifsNonSpace,
    same.inIfs, same.inIfsNonSpace⟩

theorem endCurField (same : SameSplit data other) : SameSplit (endCurField data) (endCurField other) :=
  ⟨List.rel_append same.fields (field_same same.curField), .none, same.ifs, same.ifsNonSpace, same.inIfs,
    same.inIfsNonSpace⟩

theorem splitFieldsStr (str buf : Str) (same : SameSplit data other) :
    SameSplit (splitFieldsStr data buf str) (splitFieldsStr other buf str) := by
  induction str generalizing data other buf with
  | nil =>
      rw [Mrsh.splitFieldsStr, Mrsh.splitFieldsStr, same.inIfs]
      split
      · exact same
      · exact same.addToCurField (.string _ _ _ _ _)
  | cons c str ih =>
      obtain ⟨fields, curField, ifs, ifsNonSpace, inIfs, inIfsNonSpace⟩ := data
      obtain ⟨otherFields, otherCurField, _, _, _, _⟩ := other
      obtain ⟨sameFields, sameCurField, rfl, rfl, rfl, rfl⟩ := same
      have same : SameSplit ⟨fields, curField, ifs, ifsNonSpace, inIfs, inIfsNonSpace⟩
        ⟨otherFields, otherCurField, ifs, ifsNonSpace, inIfs, inIfsNonSpace⟩ :=
        ⟨sameFields, sameCurField, rfl, rfl, rfl, rfl⟩
      simp only [Mrsh.splitFieldsStr]
      split
      · exact ih _ ⟨sameFields, sameCurField, rfl, rfl, rfl, rfl⟩
      · split
        · have ended := (same.addToCurField (.string buf false false .invalid .invalid)).endCurField
          exact ih _ ⟨ended.fields, ended.curField, rfl, rfl, rfl, rfl⟩
        · split
          · exact ih _ ⟨sameFields, sameCurField, rfl, rfl, rfl, rfl⟩
          · exact ih _ same

end SameSplit

mutual

theorem splitFieldsIn_same : ∀ (word : Word) {other : Word}, SameReading word other →
    ∀ {data otherData : SplitFieldsData}, SameSplit data otherData →
      Option.Rel SameSplit (splitFieldsIn data word) (splitFieldsIn otherData other)
  | .string str singleQuoted splitFields range, _, same, data, otherData, split => by
      cases same
      simp only [splitFieldsIn, mrshWordCopy, Option.bind_eq_bind, Option.bind_some]
      split
      · have added := split.addToCurField (.string str singleQuoted false .invalid .invalid)
        exact .some ⟨added.fields, added.curField, added.ifs, added.ifsNonSpace, rfl, rfl⟩
      · exact .some (split.splitFieldsStr str [])
  | .list children true lquotePos rquotePos, other, same, data, otherData, split => by
      obtain ⟨copy, otherCopy, copied, otherCopied, sameCopy⟩ := (SameReading.sameTree _ same).copies 0
      cases same
      simp only [splitFieldsIn, copied, otherCopied, Option.bind_eq_bind, Option.bind_some]
      exact .some (split.addToCurField sameCopy)
  | .list children false _ _, _, same, data, otherData, split => by
      cases same with
      | list same => exact splitFieldsChildren_same children same split
  | .parameter _, _, same, _, _, _ => by cases same; exact .none
  | .command _ _ _, _, same, _, _, _ => by cases same; exact .none
  | .arithmetic _, _, same, _, _, _ => by cases same; exact .none
  | .null, _, same, _, _, _ => nomatch same

theorem splitFieldsChildren_same : ∀ (words : List Word) {others : List Word}, List.Forall₂ SameReading words others →
    ∀ {data otherData : SplitFieldsData}, SameSplit data otherData →
      Option.Rel SameSplit (splitFieldsChildren data words) (splitFieldsChildren otherData others)
  | [], _, same, _, _, split => by
      cases same
      exact .some split
  | word :: words, _, same, data, otherData, split => by
      cases same with
      | @cons _ other _ others first rest =>
          have splitFirst := splitFieldsIn_same word first split
          rw [splitFieldsChildren, splitFieldsChildren]
          revert splitFirst
          generalize splitFieldsIn data word = after
          generalize splitFieldsIn otherData other = otherAfter
          intro splitFirst
          cases splitFirst with
          | none => exact .none
          | some split => exact splitFieldsChildren_same words rest split

end

theorem splitFields_same {word other : Word} (same : SameReading word other) (ifs : Option Str) :
    Option.Rel (List.Forall₂ SameReading) (splitFields word ifs) (splitFields other ifs) := by
  rw [splitFields, splitFields]
  split
  · obtain ⟨copy, otherCopy, copied, otherCopied, sameCopy⟩ := (SameReading.sameTree _ same).copies 0
    simp only [copied, otherCopied, Option.bind_eq_bind, Option.bind_some]
    exact .some (.cons sameCopy .nil)
  · have start : SameSplit ⟨[], none, ifs.getD defaultIfs, (ifs.getD defaultIfs).filter (!isSpace ·), true, false⟩
      ⟨[], none, ifs.getD defaultIfs, (ifs.getD defaultIfs).filter (!isSpace ·), true, false⟩ :=
      ⟨.nil, .none, rfl, rfl, rfl, rfl⟩
    have ended := splitFieldsIn_same word same start
    revert ended
    generalize splitFieldsIn _ word = after
    generalize splitFieldsIn _ other = otherAfter
    intro ended
    cases ended with
    | none => exact .none
    | some split => exact .some split.endCurField.fields

theorem getFieldsStr_same {fields others : List Word} (same : List.Forall₂ SameReading fields others) :
    getFieldsStr fields = getFieldsStr others := by
  induction same with
  | nil => rfl
  | @cons field other fields others first rest ih =>
      unfold getFieldsStr at ih ⊢
      rw [List.mapM_cons, List.mapM_cons, mrshWordStr_same field first, ih]

end Mrsh
