import Mrsh.Parser.Traversal

namespace Mrsh

open Mrsh.Data

/-! # Texts of one line

The lines of a here-document start behind a newline, so that nothing is recorded
while a text without newlines is read, whatever is in it.
-/

/-- A text without newlines stays one, and no line is stored. -/
def Silent (before after : Parser) : Prop :=
  before.aliasFunc = none → '\n' ∉ before.buf →
    after.aliasFunc = none ∧ '\n' ∉ after.buf ∧ after.bodies = before.bodies

theorem Silent.trans {before between after : Parser} (first : Silent before between) (second : Silent between after) :
    Silent before after := by
  intro noAliases oneLine
  obtain ⟨betweenAliases, betweenLine, betweenBodies⟩ := first noAliases oneLine
  obtain ⟨afterAliases, afterLine, afterBodies⟩ := second betweenAliases betweenLine
  exact ⟨afterAliases, afterLine, afterBodies.trans betweenBodies⟩

theorem silent : AllowsParsing Silent where
  refl := ⟨fun _ noAliases oneLine => ⟨noAliases, oneLine, rfl⟩⟩
  trans := ⟨fun _ _ _ => Silent.trans⟩
  readChar _ _ _ starts noAliases oneLine :=
    ⟨noAliases, fun member => oneLine (starts ▸ List.mem_cons_of_mem _ member), rfl⟩
  symbol _ _ _ noAliases oneLine := ⟨noAliases, oneLine, rfl⟩
  continuation _ noAliases oneLine := ⟨noAliases, oneLine, rfl⟩
  error _ _ _ noAliases oneLine := ⟨noAliases, oneLine, rfl⟩
  notes _ _ sameBuf _ sameAliases sameBodies noAliases oneLine :=
    ⟨sameAliases.trans noAliases, sameBuf ▸ oneLine, sameBodies⟩

theorem noAliases_silent : AllowsNoAliases Silent where
  gets nextSilent parser value after ended noAliases oneLine := by
    rw [Run.gets_bind, noAliases] at ended
    exact nextSilent ended noAliases oneLine
  set := .modify fun _ _ oneLine => ⟨rfl, oneLine, rfl⟩

variable {α : Type} {self : Productions}

theorem readContinuationLine_newline {parser after : Parser} (read : readContinuationLine parser = .done () after) :
    '\n' ∈ parser.buf := by
  obtain ⟨c, between, read, checked⟩ := Run.bind_done.mp read
  obtain ⟨_, _, checked, _⟩ := Run.bind_done.mp checked
  rw [parserReadChar_buf read]
  by_cases newline : c = '\n'
  · exact newline ▸ List.mem_cons_self
  · simp [assert, newline] at checked

theorem continued_silent (next : Unit → Parse α) : Run.Keeps Silent (readContinuationLine >>= next) := by
  intro parser value after ended noAliases oneLine
  obtain ⟨_, _, continued, _⟩ := Run.bind_done.mp ended
  exact absurd (readContinuationLine_newline continued) oneLine

theorem backQuotesText_oneLine (fuel : Nat) {buf text : Str} {parser after : Parser} (oneLine : '\n' ∉ parser.buf)
    (bufLine : '\n' ∉ buf) (read : backQuotesText fuel buf parser = .done (some text) after) : '\n' ∉ text := by
  induction fuel generalizing buf parser with
  | zero => cases read
  | succ fuel ih =>
      -- A character of the text is added, from whichever state it is read.
      have next : ∀ {between : Parser} {c : Char}, '\n' ∉ between.buf →
          (if c == '\n' then readContinuationLine >>= fun _ => backQuotesText fuel (buf ++ [c])
            else parserReadChar >>= fun _ => backQuotesText fuel (buf ++ [c]) : Parse (Option Str)) between =
              .done (some text) after → '\n' ∉ text := by
        intro between c betweenLine read
        by_cases newline : c = '\n'
        · rw [if_pos (beq_iff_eq.mpr newline)] at read
          obtain ⟨_, _, continued, _⟩ := Run.bind_done.mp read
          exact absurd (readContinuationLine_newline continued) betweenLine
        · rw [if_neg (by simpa using newline)] at read
          obtain ⟨_, last, readChar, read⟩ := Run.bind_done.mp read
          rw [parserReadChar_buf readChar] at betweenLine
          refine ih (fun member => betweenLine (List.mem_cons_of_mem _ member)) ?_ read
          simpa [bufLine] using fun same => newline same.symm
      rw [backQuotesText, parserPeekChar, parserPeekAt, Run.gets_bind] at read
      split at read
      · obtain ⟨_, _, _, read⟩ := Run.bind_done.mp read
        cases read
      split at read
      · obtain ⟨_, _, _, read⟩ := Run.bind_done.mp read
        cases read
        exact bufLine
      rw [parserPeekAt, Run.gets_bind] at read
      split at read
      · obtain ⟨_, between, readChar, read⟩ := Run.bind_done.mp read
        rw [parserReadChar_buf readChar] at oneLine
        exact next (fun member => oneLine (List.mem_cons_of_mem _ member)) read
      · exact next oneLine read

theorem withSubparser_silent {text : Str} (oneLine : '\n' ∉ text) {parse : Parse α}
    (parseSilent : Run.Keeps Silent parse) :
    Run.Keeps Silent (withSubparser text parse) := by
  intro parser value after ended noAliases parserLine
  unfold withSubparser at ended
  split at ended
  · rename_i parsed
    cases ended
    exact ⟨noAliases, parserLine, (parseSilent parsed rfl oneLine).2.2⟩
  · cases ended

theorem backQuotes_silent (program : Run.Keeps Silent self.mrshParseProgram) : Run.Keeps Silent (backQuotes self) := by
  refine silent.bind (silent.gets _) fun begin => silent.bind (parserReadChar_respects silent.reading).keeps fun c => ?_
  refine silent.bind (assert_respects silent.reading _).keeps fun _ => silent.bind (silent.gets _) fun fuel => ?_
  intro parser value after ended noAliases oneLine
  obtain ⟨text, between, read, ended⟩ := Run.bind_done.mp ended
  have kept := (backQuotesText_respects silent.reading fuel []).keeps read
  cases text with
  | none =>
      cases ended
      exact kept noAliases oneLine
  | some buf =>
      have bufLine := backQuotesText_oneLine fuel oneLine (by simp) read
      refine kept.trans (silent.bind (withSubparser_silent bufLine program) (fun parsed => ?_) ended) noAliases oneLine
      obtain ⟨prog, error⟩ := parsed
      cases error with
      | some errMsg => exact failed_keeps silent _
      | none => exact silent.bind (silent.gets _) fun _ => silent.pure _

theorem hereDocumentLines_silent (self : Productions) (redir : IoRedirect) (expandLines : Bool) (delim : Str)
    (fuel : Nat) : Run.Keeps Silent (hereDocumentLines self redir expandLines delim fuel) := by
  induction fuel with
  | zero => exact silent.stop _
  | succ fuel ih =>
      refine silent.bind (silent.gets _) fun lineFuel => silent.bind (readLine_respects silent.reading _ _).keeps
        fun buf => ?_
      refine silent.bind (silent.gets _) fun next => .ite (fun _ => .ite (fun _ => ?_) fun _ =>
        silent.pure _) fun _ => ?_
      · exact silent.bind (parserReadChar_respects silent.reading).keeps fun _ => silent.pure _
      refine .ite (fun _ => ?_) fun _ => continued_silent _
      exact silent.bind (parserSetError_respects silent.reading _).keeps fun _ => silent.pure _

theorem hereDocumentLine_oneLine {fuel : Nat} {line : Str} (oneLine : '\n' ∉ line) {parser after : Parser}
    {result : Word × Option Str}
    (read : withSubparser line (hereDocumentLine (productions fuel)) parser = .done result after) :
    after = { parser with nextAddress := after.nextAddress } := by
  obtain ⟨calls, -⟩ := productions_calls silent noAliases_silent (fun _ => backQuotes_silent)
    hereDocumentLines_silent fuel
  unfold withSubparser at read
  split at read
  · rename_i parsed
    cases read
    rw [(hereDocumentLine_keeps silent calls.toWordCalls parsed rfl oneLine).2.2]
  · cases read

end Mrsh
