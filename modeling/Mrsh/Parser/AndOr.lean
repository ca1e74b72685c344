import Mrsh.Parser.Symbols

namespace Mrsh

open Mrsh.Data

/-! # The text of an AND-OR list

The tree that `and_or` builds for the pipelines `p1 op1 p2 op2 ... pn` of a
text, whatever the pipelines are. It is nested to the right.
-/

/-- The tree of a pipeline and the operators and pipelines after it. -/
def rightNested (pl : Pipeline) : List (BinopType × Range × Pipeline) → AndOrList
  | [] => .pipeline pl
  | (type, opRange, next) :: links => .binop type (.pipeline pl) (rightNested next links) opRange

def connective : BinopType → SymbolName × Str
  | .and => (.andIf, ['&', '&'])
  | .or => (.orIf, ['|', '|'])

/-- Every pipeline but the first one comes with its operator and the text between them. -/
def andOrText (first : Str) : List (BinopType × Str × Str) → Str
  | [] => first
  | (type, gap, next) :: links => first ++ ((connective type).2 ++ (gap ++ andOrText next links))

/-- The text after a pipeline: an operator, a newline or the end. -/
def FollowsPipeline (rest : Str) : Prop :=
  ∃ sym, symbolAt rest = some sym ∧ sym ∈ [SymbolName.andIf, .orIf, .newline, .eofToken]

/-- The text after an AND-OR list. -/
def FollowsAndOr (rest : Str) : Prop :=
  ∃ sym, symbolAt rest = some sym ∧ sym ∈ [SymbolName.newline, .eofToken]

/-- Text that `pipeline` reads as a whole. -/
structure PipelineText (text : Str) : Prop where
  starts : ∀ rest, ∃ sym, symbolAt (text ++ rest) = some sym ∧ sym ≠ .newline
  read : ∃ enough, ∀ fuel, enough ≤ fuel → ∀ rest parser, Ready (text ++ rest) parser → FollowsPipeline rest →
    ∃ pl after, pipeline (productions fuel) parser = .done (some pl) after ∧ Ready rest after

/-- The pipeline is the result of reading the text. -/
def ReadsPipeline (text : Str) (pl : Pipeline) : Prop :=
  ∃ fuel rest parser after, Ready (text ++ rest) parser ∧
    pipeline (productions fuel) parser = .done (some pl) after ∧ Ready rest after

theorem symbolAt_connective (type : BinopType) (rest : Str) :
    symbolAt ((connective type).2 ++ rest) = some (connective type).1 := by
  cases type <;> rfl

theorem followsPipeline_connective (type : BinopType) (rest : Str) :
    FollowsPipeline ((connective type).2 ++ rest) :=
  ⟨_, symbolAt_connective type rest, by cases type <;> decide⟩

theorem FollowsAndOr.followsPipeline {rest : Str} (follows : FollowsAndOr rest) : FollowsPipeline rest := by
  obtain ⟨sym, starts, ends⟩ := follows
  exact ⟨sym, starts, List.mem_append_right [SymbolName.andIf, .orIf] ends⟩

variable {text rest first : Str} {parser : Parser} {links : List (BinopType × Str × Str)}

theorem binopType_connective (type : BinopType) (ready : Ready ((connective type).2 ++ rest) parser) :
    ∃ range after, binopType parser = .done (some (type, range)) after ∧ Ready rest after := by
  obtain ⟨found, at_, symbol⟩ := ready.symbol (symbolAt_connective type rest)
  have step : binopType parser = binopType found := by
    simp [binopType, operator, symbol, at_.symbol]
  rw [step]
  cases type with
  | and =>
      obtain ⟨range, after, read, afterReady⟩ := at_.operator rfl (List.forall_mem_ne'.mpr (by decide))
      exact ⟨range, after, by simp [binopType, connective] at read ⊢; simp [read], afterReady⟩
  | or =>
      have notAnd := at_.operator_ne .andIf (by decide)
      obtain ⟨range, after, read, afterReady⟩ := at_.operator rfl (List.forall_mem_ne'.mpr (by decide))
      exact ⟨range, after, by simp [binopType, connective] at read ⊢; simp [notAnd, read], afterReady⟩

theorem binopType_none (ready : Ready rest parser) (follows : FollowsAndOr rest) :
    ∃ after, binopType parser = .done none after ∧ Ready rest after := by
  obtain ⟨sym, starts, ends⟩ := follows
  obtain ⟨after, at_, symbol⟩ := ready.symbol starts
  refine ⟨after, ?_, at_.ready starts⟩
  rcases List.mem_pair.mp ends with rfl | rfl <;> simp [binopType, operator, symbol, at_.symbol]

theorem andOrText_starts (firstText : PipelineText first) (links : List (BinopType × Str × Str)) (tail : Str) :
    ∃ sym, symbolAt (andOrText first links ++ tail) = some sym ∧ sym ≠ .newline := by
  cases links with
  | nil => exact firstText.starts tail
  | cons link links =>
      rw [andOrText, List.append_assoc]
      exact firstText.starts _

theorem andOr_reads (firstText : PipelineText first)
    (linksText : ∀ link ∈ links, LinebreakText link.2.1 ∧ PipelineText link.2.2) :
    ∃ enough, ∀ fuel, enough ≤ fuel → ∀ tail parser, Ready (andOrText first links ++ tail) parser →
      FollowsAndOr tail →
      ∃ pl read after, andOr (productions fuel) parser = .done (some (rightNested pl read)) after ∧
        Ready tail after ∧ ReadsPipeline first pl ∧
        List.Forall₂ (fun link read => link.1 = read.1 ∧ ReadsPipeline link.2.2 read.2.2) links read := by
  induction links generalizing first with
  | nil =>
      obtain ⟨enough, reads⟩ := firstText.read
      refine ⟨enough, fun fuel large tail parser ready follows => ?_⟩
      obtain ⟨pl, between, readPl, readyBetween⟩ := reads fuel large tail parser ready follows.followsPipeline
      obtain ⟨after, ended, readyAfter⟩ := binopType_none readyBetween follows
      refine ⟨pl, [], after, ?_, readyAfter, ⟨fuel, tail, parser, between, ready, readPl, readyBetween⟩, .nil⟩
      simp [andOr, readPl, ended, rightNested]
  | cons link links ih =>
      obtain ⟨type, gap, next⟩ := link
      rw [List.forall_mem_cons] at linksText
      obtain ⟨⟨gapText, nextText⟩, linksText⟩ := linksText
      obtain ⟨enough, reads⟩ := firstText.read
      obtain ⟨enoughRest, readsRest⟩ := ih nextText linksText
      refine ⟨max enough (enoughRest + 1), fun fuel large tail parser ready follows => ?_⟩
      obtain ⟨fuel, rfl⟩ : ∃ more, fuel = more + 1 := ⟨fuel - 1, by omega⟩
      simp only [andOrText, List.append_assoc] at ready
      obtain ⟨pl, afterPl, readPl, readyPl⟩ :=
        reads (fuel + 1) (by omega) _ parser ready (followsPipeline_connective type _)
      obtain ⟨range, afterOp, readOp, readyOp⟩ := binopType_connective type readyPl
      obtain ⟨sym, starts, notNewline⟩ := andOrText_starts nextText links tail
      obtain ⟨afterGap, readGap, readyGap⟩ := gapText.linebreak readyOp starts notNewline
      obtain ⟨nextPl, read, after, readNext, readyAfter, nextReads, readsLinks⟩ :=
        readsRest fuel (by omega) tail afterGap readyGap follows
      refine ⟨pl, (type, range, nextPl) :: read, after, ?_, readyAfter,
        ⟨fuel + 1, _, parser, afterPl, ready, readPl, readyPl⟩, .cons ⟨rfl, nextReads⟩ readsLinks⟩
      have readNext : (productions (fuel + 1)).andOr afterGap = _ := readNext
      rw [andOr]
      simp [readPl, readOp, readGap, readNext, rightNested]

end Mrsh
