import Mathlib.Data.List.DropRight
import Mrsh.Parser.HereDocuments

namespace Mrsh

open Mrsh.Data

/-! # Here-documents in compound commands

In a compound command the newline before a here-document is read by
`newline_list`, which goes on to the next symbol. The document is read from
there, so that its lines are stored as they are written only if its first line
starts with a symbol that nothing is skipped before.
-/

/-! ## Blank lines and comments -/

/-- The text that is left after blank lines, comments and the blanks before a symbol. -/
def skipLines (inComment : Bool) : Str → Str
  | [] => []
  | c :: rest =>
      if c == '\n' then skipLines false rest
      else if inComment then if c == '\x00' then c :: rest else skipLines true rest
      else if isBlank c then skipLines false rest
      else if c == '#' then skipLines true rest
      else c :: rest

/-- The line starts with a symbol. -/
def StartsVisible (line : Str) : Prop := ∃ c rest, line = c :: rest ∧ isBlank c = false ∧ c ≠ '#'

instance (line : Str) : Decidable (StartsVisible line) :=
  match line with
  | [] => .isFalse fun ⟨_, _, starts, _⟩ => by cases starts
  | c :: rest => decidable_of_iff (isBlank c = false ∧ c ≠ '#')
      ⟨fun visible => ⟨c, rest, rfl, visible⟩, fun ⟨_, _, starts, visible⟩ => by cases starts; exact visible⟩

variable {rest : Str} {parser : Parser}

theorem exists_line (text : Str) :
    ∃ line rest, text = line ++ rest ∧ LineText line ∧ (charAt rest 0 = '\n' ∨ charAt rest 0 = '\x00') := by
  induction text with
  | nil => exact ⟨[], [], rfl, by simp [LineText], .inr rfl⟩
  | cons c text ih =>
      by_cases ends : c = '\n' ∨ c = '\x00'
      · exact ⟨[], c :: text, rfl, by simp [LineText], ends⟩
      · obtain ⟨line, rest, rfl, lineText, restEnds⟩ := ih
        refine ⟨c :: line, rest, rfl, ?_, restEnds⟩
        exact List.forall_mem_cons.mpr ⟨not_or.mp ends, lineText⟩

theorem skipLines_comment (line : Str) (text : LineText line) (ends : charAt rest 0 = '\n' ∨ charAt rest 0 = '\x00') :
    skipLines true (line ++ rest) = skipLines false rest := by
  induction line with
  | nil =>
      cases rest with
      | nil => rfl
      | cons c rest =>
          have first : c = '\n' ∨ c = '\x00' := ends
          rcases first with rfl | rfl <;> rfl
  | cons c line ih =>
      obtain ⟨⟨notNewline, visible⟩, text⟩ := text.cons
      rw [List.cons_append, skipLines, if_neg (by simpa using notNewline), if_pos rfl, if_neg (by simpa using visible)]
      exact ih text

theorem skipLines_blank {c : Char} (blank : isBlank c = true) : skipLines false (c :: rest) = skipLines false rest := by
  have notNewline : (c == '\n') = false := by
    rcases (by simpa [isBlank] using blank : c = ' ' ∨ c = '\t') with rfl | rfl <;> rfl
  simp [skipLines, notNewline, blank]

theorem skipLines_symbol {sym : SymbolName} {text : Str} (starts : symbolAt text = some sym) (other : sym ≠ .newline) :
    skipLines false text = text := by
  cases text with
  | nil => rfl
  | cons c text =>
      have notNewline : c ≠ '\n' := by
        rintro rfl
        exact other (Option.some.inj starts).symm
      by_cases skipped : isBlank c = true ∨ c = '#'
      · rcases (by simpa [isBlank, or_assoc] using skipped : c = ' ' ∨ c = '\t' ∨ c = '#') with rfl | rfl | rfl <;>
          cases starts
      · rw [not_or] at skipped
        simp [skipLines, notNewline, skipped]

theorem skipLines_starts {inComment : Bool} {text left : Str} {c : Char}
    (starts : skipLines inComment text = c :: left) :
    c = '\x00' ∨ c ≠ '\n' ∧ isBlank c = false ∧ c ≠ '#' := by
  induction text generalizing inComment with
  | nil => cases starts
  | cons first text ih =>
      rw [skipLines] at starts
      split at starts
      · exact ih starts
      split at starts
      · split at starts
        · rename_i nul
          cases starts
          exact .inl (by simpa using nul)
        · exact ih starts
      split at starts
      · exact ih starts
      split at starts
      · exact ih starts
      · cases starts
        exact .inr (by simp_all)

theorem nextSymbolWithin_skips (fuel : Nat) (enough : parser.buf.length < fuel) :
    ∃ left pos continuationLine sym, nextSymbolWithin fuel parser =
        .done () { parser.moved left pos continuationLine with hasSym := true, sym } ∧
      symbolAt left = some sym ∧ skipLines false left = skipLines false parser.buf ∧
      left.length ≤ parser.buf.length := by
  induction fuel generalizing parser with
  | zero => omega
  | succ fuel ih =>
      cases starts : symbolAt parser.buf with
      | some sym =>
          refine ⟨parser.buf, parser.pos, parser.continuationLine, sym, ?_, starts, rfl, Nat.le_refl _⟩
          rw [nextSymbolWithin_of_symbolAt parser fuel starts, parser.moved_self rfl]
      | none =>
          cases buf : parser.buf with
          | nil =>
              rw [buf] at starts
              cases starts
          | cons c text =>
              have skips : isBlank c = true ∨ c = '#' := symbolAt_eq_none (by rw [← starts, buf])
              rw [buf, List.length_cons] at enough
              rw [nextSymbolWithin_of_none fuel buf starts]
              by_cases blank : isBlank c = true
              · have visible : c ≠ '\x00' := by
                  rintro rfl
                  cases blank
                have read := @parserReadChar_cons text { parser with hasSym := true } c buf visible
                rw [if_pos blank, Run.bind_of_done read, skipLines_blank blank]
                obtain ⟨left, pos, continuationLine, sym, found, at_, same, shorter⟩ := @ih
                  ({ parser with hasSym := true }.moved text (parser.pos.advance c) false)
                    (Nat.lt_of_succ_lt_succ enough)
                refine ⟨left, pos, continuationLine, sym, found, at_, same, ?_⟩
                exact Nat.le_succ_of_le shorter
              · obtain rfl := skips.resolve_left blank
                obtain ⟨line, rest, rfl, lineText, ends⟩ := exists_line text
                obtain ⟨pos, continuationLine, skipped⟩ := @skipComment_line rest { parser with hasSym := true }
                  ('#' :: line) (List.forall_mem_cons.mpr ⟨by decide, lineText⟩) ends (parser.buf.length + 1)
                  (by rw [buf]; simp only [List.length_cons, List.length_append]; omega) buf
                rw [if_neg blank, Run.bind_of_done skipped]
                have comment : skipLines false ('#' :: (line ++ rest)) = skipLines false rest :=
                  skipLines_comment line lineText ends
                obtain ⟨left, pos, continuationLine, sym, found, at_, same, shorter⟩ := @ih
                  ({ parser with hasSym := true }.moved rest pos continuationLine)
                  (by rw [List.length_append] at enough; simp only [Parser.moved]; omega)
                refine ⟨left, pos, continuationLine, sym, found, at_, same.trans comment.symm, ?_⟩
                have length : left.length ≤ rest.length := shorter
                rw [List.length_cons, List.length_append]
                omega

theorem linebreakWithin_skips (idle : parser.hasSym = false) (fuel : Nat) (enough : parser.buf.length < fuel) :
    ∃ pos continuationLine sym, linebreakWithin fuel parser =
      .done () { parser.moved (skipLines false parser.buf) pos continuationLine with hasSym := true, sym } := by
  induction fuel generalizing parser with
  | zero => omega
  | succ fuel ih =>
      obtain ⟨left, pos, continuationLine, sym, found, starts, same, shorter⟩ :=
        @nextSymbolWithin_skips parser (parser.buf.length + 1) (Nat.lt_succ_self _)
      have got : getSymbol parser = .done sym { parser.moved left pos continuationLine with hasSym := true, sym } := by
        simp [getSymbol, idle, nextSymbol, bufferFuel, found]
      by_cases isNewline : sym = .newline
      · subst isNewline
        obtain ⟨text, rfl⟩ : ∃ text, left = '\n' :: text := by
          have first := (symbolAt_char starts).2 rfl
          cases left with
          | nil => cases first
          | cons c text => exact ⟨text, by rw [show c = '\n' from first]⟩
        have ends := newline_of_symbol got rfl
        obtain ⟨posAfter, lineAfter, symAfter, run⟩ := @ih
          { parser.moved text (pos.advance '\n') false with hasSym := false, sym := .newline } rfl
          (by simp only [List.length_cons] at shorter; simp only [Parser.moved]; omega)
        refine ⟨posAfter, lineAfter, symAfter, ?_⟩
        rw [linebreakWithin, Run.bind_of_done ends, ← same]
        exact run
      · refine ⟨pos, continuationLine, sym, ?_⟩
        rw [linebreakWithin, Run.bind_of_done (newline_other got isNewline), ← same, skipLines_symbol starts isNewline]
        rfl

/-! ## The words of lines -/

section

variable {self : Productions}

/-! What a line is read as begins with its first character or with an expansion. -/

theorem hereDocumentLineLoop_children (fuel : Nat) {children : List Word} {buf : Str} {parser after : Parser}
    {word : Word}
    (read : hereDocumentLineLoop self fuel children buf parser = .done word after) :
    word = .null ∨ ∃ more, word = wordOf (children ++ more) ∧
      ∀ c str, buf = c :: str → ∃ text rest, more = mrshWordStringCreate (c :: text) false :: rest := by
  induction fuel generalizing children buf parser with
  | zero => cases read
  | succ fuel ih =>
      have pushed : ∃ more, pushBufferWordString children buf = children ++ more ∧
          ∀ c str, buf = c :: str → more = [mrshWordStringCreate (c :: str) false] := by
        cases buf with
        | nil => exact ⟨[], (List.append_nil _).symm, fun _ _ impossible => by cases impossible⟩
        | cons c str => exact ⟨[mrshWordStringCreate (c :: str) false], rfl, fun _ _ same => by cases same; rfl⟩
      obtain ⟨front, push, frontIs⟩ := pushed
      -- The rule for a child that is added behind the buffer.
      have added : ∀ {child : Word} {between : Parser},
          hereDocumentLineLoop self fuel (pushBufferWordString children buf ++ [child]) [] between = .done word after →
          word = .null ∨ ∃ more, word = wordOf (children ++ more) ∧
            ∀ c str, buf = c :: str → ∃ text rest, more = mrshWordStringCreate (c :: text) false :: rest := by
        intro child between read
        rcases ih read with null | ⟨more, same, _⟩
        · exact .inl null
        · refine .inr ⟨front ++ [child] ++ more, ?_, fun c str starts => ?_⟩
          · rw [same, push]
            simp only [List.append_assoc]
          · rw [frontIs c str starts]
            exact ⟨str, [child] ++ more, by simp⟩
      rw [hereDocumentLineLoop, parserPeekChar, parserPeekAt, Run.gets_bind] at read
      split at read
      · refine .inr ⟨front, ?_, fun c str starts => ⟨str, [], frontIs c str starts⟩⟩
        rw [← push]
        generalize pushBufferWordString children buf = words at read
        rcases words with _ | ⟨first, _ | ⟨second, rest⟩⟩ <;> (cases read; rfl)
      split at read
      · obtain ⟨child, between, _, read⟩ := Run.bind_done.mp read
        cases child with
        | none =>
            cases read
            exact .inl rfl
        | some child => exact added read
      split at read
      · obtain ⟨child, between, _, read⟩ := Run.bind_done.mp read
        exact added read
      -- A character is added to the buffer.
      have appended : ∀ {d : Char} {between : Parser},
          hereDocumentLineLoop self fuel children (buf ++ [d]) between = .done word after →
          word = .null ∨ ∃ more, word = wordOf (children ++ more) ∧
            ∀ c str, buf = c :: str → ∃ text rest, more = mrshWordStringCreate (c :: text) false :: rest := by
        intro d between read
        rcases ih read with null | ⟨more, same, starts⟩
        · exact .inl null
        · refine .inr ⟨more, same, fun c str first => ?_⟩
          subst first
          exact starts c (str ++ [d]) rfl
      rw [parserPeekAt, Run.gets_bind] at read
      split at read
      · obtain ⟨_, between, _, read⟩ := Run.bind_done.mp read
        obtain ⟨_, last, _, read⟩ := Run.bind_done.mp read
        exact appended read
      · obtain ⟨_, between, _, read⟩ := Run.bind_done.mp read
        exact appended read

def firstChild : Word → Option Word
  | .list children _ _ _ => children.head?
  | word => some word

theorem firstChild_wordOf {child : Word} (single : isList child = false) (rest : List Word) :
    firstChild (wordOf (child :: rest)) = some child := by
  cases rest with
  | nil =>
      cases child with
      | list _ _ _ _ => cases single
      | _ => rfl
  | cons _ _ => rfl

/-- The word begins with something else than a blank or a `#`. -/
def OpensVisible (word : Word) : Prop :=
  ∃ child, firstChild word = some child ∧
    ∀ c text, child = mrshWordStringCreate (c :: text) false → isBlank c = false ∧ c ≠ '#'

theorem opensVisible_expansion {child : Word} (expansion : isExpansion child = true ∨ child = .null)
    (rest : List Word) :
    OpensVisible (wordOf (child :: rest)) := by
  refine ⟨child, firstChild_wordOf ?_ rest, ?_⟩
  · rcases expansion with expansion | rfl
    · cases child <;> first | rfl | cases expansion
    · rfl
  · rintro c text rfl
    rcases expansion with expansion | impossible
    · cases expansion
    · cases impossible

theorem opensVisible_string (c : Char) (text : Str) (rest : List Word) :
    OpensVisible (wordOf (mrshWordStringCreate (c :: text) false :: rest)) ↔ isBlank c = false ∧ c ≠ '#' := by
  have first := @firstChild_wordOf (mrshWordStringCreate (c :: text) false) rfl rest
  constructor
  · rintro ⟨child, found, visible⟩
    cases first.symm.trans found
    exact visible c text rfl
  · intro visible
    refine ⟨_, first, fun d other same => ?_⟩
    cases same
    exact visible

theorem lineWord_visible {line : Str} {word : Word} (text : LineText line) (stored : LineWord self line word)
    (notNull : word ≠ .null) : OpensVisible word ↔ StartsVisible line := by
  obtain ⟨before, error, after, run⟩ := stored
  unfold withSubparser at run
  split at run
  case h_2 => cases run
  rename_i value sub ended
  cases run
  have read : hereDocumentLineLoop self (line.length + 1) [] []
      { mrshParserWithData line with nextAddress := before.nextAddress, bodies := before.bodies } = .done word sub :=
        ended
  rw [hereDocumentLineLoop, parserPeekChar, parserPeekAt, Run.gets_bind] at read
  cases line with
  | nil =>
      cases read
      refine ⟨?_, ?_⟩
      · rintro ⟨child, found, _⟩
        cases found
      · rintro ⟨c, rest, impossible, _⟩
        cases impossible
  | cons c rest =>
      have starts : StartsVisible (c :: rest) ↔ isBlank c = false ∧ c ≠ '#' := by
        constructor
        · rintro ⟨_, _, same, visible⟩
          cases same
          exact visible
        · exact fun visible => ⟨c, rest, rfl, visible⟩
      rw [starts]
      have peeked : charAt (mrshParserWithData (c :: rest)).buf 0 = c := rfl
      simp only [peeked] at read
      rw [if_neg (by simpa using text.cons.1.2)] at read
      split at read
      · rename_i dollar
        obtain rfl : c = '$' := by simpa using dollar
        refine iff_of_true ?_ (by decide)
        obtain ⟨child, between, readChild, read⟩ := Run.bind_done.mp read
        have expansion := expectDollar_expansion _ _ _ readChild
        cases child with
        | none =>
            cases read
            exact absurd rfl notNull
        | some child =>
            rcases hereDocumentLineLoop_children _ read with null | ⟨more, rfl, _⟩
            · exact absurd null notNull
            · exact opensVisible_expansion (.inl (expansion child rfl)) more
      split at read
      · rename_i quoted
        obtain rfl : c = '\x60' := by simpa using quoted
        refine iff_of_true ?_ (by decide)
        obtain ⟨child, between, readChild, read⟩ := Run.bind_done.mp read
        have expansion := backQuotes_expansion _ _ _ readChild
        have isChild : isExpansion (child.getD .null) = true ∨ child.getD .null = .null := by
          cases child with
          | none => exact .inr rfl
          | some child => exact .inl (expansion child rfl)
        rcases hereDocumentLineLoop_children _ read with null | ⟨more, rfl, _⟩
        · exact absurd null notNull
        · exact opensVisible_expansion isChild more
      -- The first character of the word is that of the line, or the one after a backslash.
      have opens : ∀ {d : Char} {between : Parser}, (isBlank d = false ∧ d ≠ '#' ↔ isBlank c = false ∧ c ≠ '#') →
          hereDocumentLineLoop self (c :: rest).length [] ([] ++ [d]) between = .done word sub →
          (OpensVisible word ↔ isBlank c = false ∧ c ≠ '#') := by
        intro d between same read
        rcases hereDocumentLineLoop_children _ read with null | ⟨more, rfl, front⟩
        · exact absurd null notNull
        · obtain ⟨str, rest, rfl⟩ := front d [] rfl
          exact (opensVisible_string d str rest).trans same
      rw [parserPeekAt, Run.gets_bind] at read
      split at read
      · rename_i escaped
        obtain ⟨_, between, _, read⟩ := Run.bind_done.mp read
        obtain ⟨_, last, _, read⟩ := Run.bind_done.mp read
        refine opens ?_ read
        simp only [Bool.and_eq_true, Bool.or_eq_true, beq_iff_eq] at escaped
        obtain ⟨rfl, next⟩ := escaped
        rcases next with (next | next) | next <;> rw [next] <;> decide
      · obtain ⟨_, between, _, read⟩ := Run.bind_done.mp read
        exact opens Iff.rfl read

end

/-! ## A document behind a command -/

/-- A here-document as it stands in the text, down to the line that ends it. -/
structure DocumentText where
  op : IoRedirectOp
  quoted : Bool
  lines : List Str
  last : Str

/-- The line can be read on its own, with every expansion in it. -/
def Expandable (self : Productions) (line : Str) : Prop :=
  ∀ parser, ∃ word error after,
    withSubparser line (hereDocumentLine self) parser = .done (word, error) after ∧ word ≠ .null

namespace DocumentText

def text (doc : DocumentText) : Str := doc.lines.flatMap (· ++ ['\n']) ++ doc.last ++ ['\n']

/-- The line as it is compared with the delimiter, and stored. -/
def trim (doc : DocumentText) (line : Str) : Str := if doc.op == .dlessdash then line.dropWhile (· == '\t') else line

def delim (doc : DocumentText) : Str := doc.trim doc.last

def first (doc : DocumentText) : Str := doc.lines.headD doc.last

/-- The delimiter ends the document nowhere else, and the lines can be expanded if they have to be. -/
structure Proper (reader : Productions) (doc : DocumentText) : Prop where
  lines : ∀ line ∈ doc.lines, LineText line ∧ doc.trim line ≠ doc.delim
  last : LineText doc.last
  expandable : doc.quoted = false → ∀ line ∈ doc.lines, Expandable reader (doc.trim line)

end DocumentText

/-- The parser is before the newline behind a command with the document. -/
structure BeforeDocument (doc : DocumentText) (redir : IoRedirect) (rest : Str) (parser : Parser) : Prop where
  pending : parser.hereDocuments = [redir]
  op : redir.op = doc.op
  delim : mrshWordStr redir.name = some doc.delim
  quoted : isWordQuoted redir.name = some doc.quoted
  settled : parser.hasSym = true → parser.sym = .newline
  buf : parser.buf = '\n' :: (doc.text ++ rest)

/-- The lines of the document are recorded for the redirection, each as it is written. -/
def Records (self : Productions) (doc : DocumentText) (redir : IoRedirect) (before after : Parser) : Prop :=
  ∃ entries, after.bodies = before.bodies ++ entries ∧
    List.Forall₂ (fun line entry => entry.1 = redir.addr ∧ StoredAs self (!doc.quoted) (doc.trim line) entry.2)
      doc.lines entries

/-- `term` returns the command, whose document has been read after `read`. -/
def TermRecords (self : Productions) (doc : DocumentText) (redir : IoRedirect) (parser read : Parser) : Prop :=
  ∃ l after, term self parser = .done (some l) after ∧ Records self doc redir read after

/-- `complete_command` returns the commands, whose document has been read after `read`. -/
def CompleteRecords (self : Productions) (doc : DocumentText) (redir : IoRedirect) (parser read : Parser) : Prop :=
  ∃ cmds after, completeCommand self parser = .done (cmds, true) after ∧ Records self doc redir read after

section

variable {fuel : Nat} {doc : DocumentText} {redir : IoRedirect} {read : Parser}

theorem storedLine_trim (op : redir.op = doc.op) (line : Str) : storedLine redir line = doc.trim line := by
  rw [storedLine, op]
  rfl

theorem Expandable.readable {line : Str} (text : LineText line) (expandable : Expandable (productions fuel) line) :
    Readable (productions fuel) line := by
  intro parser
  obtain ⟨word, error, after, run, _⟩ := expandable parser
  have same := hereDocumentLine_oneLine (fun member => (text _ member).1 rfl) run
  exact ⟨word, error, after.nextAddress, run.trans (congrArg _ same)⟩

theorem LineText.trim {line : Str} (text : LineText line) : LineText (doc.trim line) := by
  unfold DocumentText.trim
  split
  · exact fun c member => text c (List.dropWhile_sublist _ |>.mem member)
  · exact text

theorem expectHereDocument_text (proper : doc.Proper (productions fuel)) (op : redir.op = doc.op)
    (quoted : isWordQuoted redir.name = some doc.quoted) (buf : parser.buf = doc.text ++ rest) :
    ∃ after, expectHereDocument (productions fuel) redir doc.delim parser = .done true after ∧
      Records (productions fuel) doc redir parser after := by
  have trimmed := storedLine_trim op
  obtain ⟨entries, stores⟩ := @storesLines_of_readable (productions fuel) redir (!doc.quoted) doc.lines
    (fun expands line member => by
      rw [trimmed]
      exact (proper.expandable (by simpa using expands) line member).readable (proper.lines line member).1.trim) parser
  have holds := stores.storedAs
  obtain ⟨pos, nextAddress, run⟩ := @expectHereDocument_lines rest parser (productions fuel) redir doc.lines entries
    doc.quoted quoted doc.last
    (fun line member => by rw [trimmed, trimmed]; exact proper.lines line member) proper.last stores
    (by rw [buf, DocumentText.text]; simp)
  rw [trimmed] at run
  simp only [trimmed] at holds
  exact ⟨_, run, entries, rfl, holds⟩

theorem completeCommand_records (proper : doc.Proper (productions fuel)) {parser between : Parser} {l : CommandList}
    {cmds : List CommandList} (first : list (productions fuel) parser = .done (some l) between)
    (others : collect (list (productions fuel)) (productions fuel).fuel [l] between = .done cmds read)
    (before : BeforeDocument doc redir rest read) : CompleteRecords (productions fuel) doc redir parser read := by
  obtain ⟨found, got, foundBuf, foundBodies, _⟩ := getSymbol_newline before.settled before.buf
  have ends := newline_of_symbol got foundBuf
  obtain ⟨after, run, entries, bodies, holds⟩ := @expectHereDocument_text rest
    { found.moved (doc.text ++ rest) (found.pos.advance '\n') false with hasSym := false } fuel doc redir proper
    before.op before.quoted rfl
  refine ⟨cmds, { after with hereDocuments := [] }, ?_, entries, foundBodies ▸ bodies, holds⟩
  rw [completeCommand_documents first others before.pending (by simp), Run.bind_apply, expectHereDocuments,
    Run.bind_apply, hereDocumentNewline, Run.bind_of_done ends]
  simp only [if_true, Run.pure_apply, Outcome.andThen_done, before.delim, orAbort, pure_bind]
  rw [Run.bind_of_done run]
  rfl

/-- In a compound command the document is read from where the next symbol starts. -/
theorem term_document {parser : Parser} {andOrList : AndOrList}
    (command : (productions fuel).andOr parser = .done (some andOrList) read)
    (before : BeforeDocument doc redir rest read) :
    ∃ started l, started.buf = skipLines false (doc.text ++ rest) ∧ started.bodies = read.bodies ∧
      term (productions fuel) parser =
        (do
          if ← expectHereDocument (productions fuel) redir doc.delim then
            clearHereDocuments
            pure (some l)
          else pure none : Parse (Option CommandList)) started := by
  obtain ⟨found, got, foundBuf, foundBodies, foundPending, _⟩ := getSymbol_newline before.settled before.buf
  have noToken : ∀ str parser, getSymbol parser = .done .newline found → token str parser = .done none found := by
    intro str parser got
    rw [token, Run.bind_of_done (symbol_of_getSymbol got .token)]
    rfl
  have noOperator : separatorOp read = .done none found := by
    rw [separatorOp, Run.bind_of_done (noToken _ _ got)]
    exact Run.bind_of_done (noToken _ _ (getSymbol_again got))
  have ends := newline_of_symbol (getSymbol_again got) foundBuf
  obtain ⟨pos, continuationLine, sym, skipped⟩ := @linebreakWithin_skips
    { found.moved (doc.text ++ rest) (found.pos.advance '\n') false with hasSym := false } rfl
    ((doc.text ++ rest).length + 1) (Nat.lt_succ_self _)
  let started : Parser :=
    { found.moved (skipLines false (doc.text ++ rest)) pos continuationLine with hasSym := true, sym }
  have separated : separator read = .done (some .newline) started := by
    have list : newlineList found = .done true started := by
      rw [newlineList, Run.bind_of_done ends]
      exact Run.bind_of_done skipped
    rw [separator, Run.bind_of_done noOperator]
    exact Run.bind_of_done list
  refine ⟨started, commandListOf andOrList (some .newline) read.pos, rfl, foundBodies, ?_⟩
  have pending : started.hereDocuments = [redir] := foundPending.trans before.pending
  have position : getPos read = .done read.pos read := rfl
  rw [term, Run.bind_of_done command]
  simp only []
  rw [Run.bind_of_done position, Run.bind_of_done separated, Run.gets_bind, pending]
  simp only [beq_self_eq_true, List.isEmpty_cons, Bool.not_false, Bool.and_self, if_true, expectHereDocuments,
    pure_bind,
    before.delim, orAbort, bind_assoc]
  refine congrFun (congrArg (_ >>= ·) (funext fun found => ?_)) started
  cases found <;> rfl

theorem hereDocumentLines_first {expandLines : Bool} {delim line : Str} (text : LineText line)
    (ends : charAt rest 0 = '\n' ∨ charAt rest 0 = '\x00') (lineFuel : Nat) (buf : parser.buf = line ++ rest)
    {after : Parser}
    (read : hereDocumentLines (productions fuel) redir expandLines delim lineFuel parser = .done true after) :
    storedLine redir line = delim ∧ after.bodies = parser.bodies ∨
      charAt rest 0 = '\n' ∧ ∃ word more, after.bodies = parser.bodies ++ (redir.addr, word) :: more ∧
        StoredAs (productions fuel) expandLines (storedLine redir line) word := by
  induction lineFuel generalizing parser line rest with
  | zero => cases read
  | succ lineFuel ih =>
      obtain ⟨pos, continuationLine, step⟩ := hereDocumentLines_step redir expandLines delim line text ends lineFuel buf
      rw [step] at read
      split at read
      · rename_i same
        refine .inl ⟨by simpa using same, ?_⟩
        split at read
        · obtain ⟨_, between, readChar, read⟩ := Run.bind_done.mp read
          cases read
          exact ((parserReadChar_respects allowsReading_forward).done readChar).1
        · cases read
          rfl
      split at read
      · obtain ⟨_, between, _, read⟩ := Run.bind_done.mp read
        cases read
      rename_i _ goesOn
      refine .inr ⟨ends.resolve_right (by simpa using goesOn), ?_⟩
      obtain ⟨_, next, continued, read⟩ := Run.bind_done.mp read
      have nextBodies := ((readContinuationLine_respects allowsReading_forward).done continued).1
      -- What follows adds lines behind the one that is stored.
      have stores :
        ∀ {word : Word} {stored : Parser}, StoredAs (productions fuel) expandLines (storedLine redir line) word →
          stored.bodies = parser.bodies ++ [(redir.addr, word)] →
          hereDocumentLines (productions fuel) redir expandLines delim lineFuel stored = .done true after →
          ∃ word more, after.bodies = parser.bodies ++ (redir.addr, word) :: more ∧
            StoredAs (productions fuel) expandLines (storedLine redir line) word := by
        intro word stored storedAs bodies read
        obtain ⟨nextLine, nextRest, nextBuf, nextText, nextEnds⟩ := exists_line stored.buf
        rcases ih nextText nextEnds nextBuf read with ⟨_, same⟩ | ⟨_, other, more, same, _⟩
        · exact ⟨word, [], same.trans bodies, storedAs⟩
        · refine ⟨word, (redir.addr, other) :: more, ?_, storedAs⟩
          rw [same, bodies, List.append_assoc]
          rfl
      cases expandLines with
      | false =>
          rw [if_neg Bool.false_ne_true] at read
          obtain ⟨_, stored, added, read⟩ := Run.bind_done.mp read
          cases added
          exact stores rfl (congrArg (· ++ _) nextBodies) read
      | true =>
          rw [if_pos rfl] at read
          obtain ⟨⟨word, error⟩, expanded, readLine, read⟩ := Run.bind_done.mp read
          obtain ⟨_, stored, added, read⟩ := Run.bind_done.mp read
          cases added
          have oneLine : '\n' ∉ storedLine redir line := by
            have trimmed := (@LineText.trim ⟨redir.op, false, [], []⟩ line text)
            exact fun member => (trimmed _ member).1 rfl
          have expandedBodies : expanded.bodies = next.bodies := by
            rw [hereDocumentLine_oneLine oneLine readLine]
          have isWord : StoredAs (productions fuel) true (storedLine redir line) word := ⟨_, _, _, readLine⟩
          refine stores isWord ?_ read
          exact congrArg (· ++ _) (expandedBodies.trans nextBodies)

theorem trim_visible {line : Str} (visible : StartsVisible line) : doc.trim line = line := by
  obtain ⟨c, rest, rfl, notBlank, _⟩ := visible
  have notTab : (c == '\t') = false := by
    rw [isBlank, Bool.or_eq_false_iff] at notBlank
    exact notBlank.2
  unfold DocumentText.trim
  split
  · rw [List.dropWhile_cons, notTab]
    rfl
  · rfl

theorem trim_trim (line : Str) : doc.trim (doc.trim line) = doc.trim line := by
  unfold DocumentText.trim
  split
  · exact List.dropWhile_idempotent _ _
  · rfl

theorem skipLines_trim {line : Str} (text : LineText line) (visible : StartsVisible (doc.trim line)) :
    skipLines false (line ++ rest) = doc.trim line ++ rest := by
  induction line with
  | nil =>
      obtain ⟨c, left, starts, _⟩ := visible
      unfold DocumentText.trim at starts
      split at starts <;> cases starts
  | cons c line ih =>
      by_cases tab : doc.op = .dlessdash ∧ c = '\t'
      · obtain ⟨op, rfl⟩ := tab
        have dropped : doc.trim ('\t' :: line) = doc.trim line := by simp [DocumentText.trim, op]
        rw [dropped] at visible ⊢
        rw [List.cons_append, skipLines_blank rfl]
        exact ih text.cons.2 visible
      · have same : doc.trim (c :: line) = c :: line := by
          by_cases op : doc.op = .dlessdash
          · simp [DocumentText.trim, op, show c ≠ '\t' from fun isTab => tab ⟨op, isTab⟩]
          · simp [DocumentText.trim, op]
        rw [same] at visible ⊢
        obtain ⟨_, _, starts, notBlank, notComment⟩ := visible
        cases starts
        simp [skipLines, text.cons.1.1, notBlank, notComment]

theorem skipLines_empty {line : Str} (empty : doc.trim line = []) :
    skipLines false (line ++ '\n' :: rest) = skipLines false rest := by
  unfold DocumentText.trim at empty
  split at empty
  · have tabs : ∀ c ∈ line, c = '\t' := by simpa [List.dropWhile_eq_nil_iff] using empty
    clear empty
    induction line with
    | nil => rfl
    | cons c line ih =>
        rw [List.forall_mem_cons] at tabs
        obtain ⟨rfl, tabs⟩ := tabs
        rw [List.cons_append, skipLines_blank rfl]
        exact ih tabs
  · subst empty
    rfl

/-- The document without the tabs that its first line starts with and that are not stored. -/
def DocumentText.untabbed (doc : DocumentText) : DocumentText :=
  match doc.lines with
  | [] => { doc with last := doc.trim doc.last }
  | line :: lines => { doc with lines := doc.trim line :: lines }

theorem skipLines_text (proper : doc.Proper (productions fuel)) (visible : StartsVisible (doc.trim doc.first)) :
    skipLines false (doc.text ++ rest) = doc.untabbed.text ++ rest := by
  obtain ⟨op, quoted, lines, last⟩ := doc
  cases lines with
  | nil =>
      have skipped := @skipLines_trim ('\n' :: rest) ⟨op, quoted, [], last⟩ last proper.last visible
      simpa [DocumentText.text, DocumentText.untabbed] using skipped
  | cons line lines =>
      have skipped := @skipLines_trim ('\n' :: (lines.flatMap (· ++ ['\n']) ++ last ++ '\n' :: rest))
        ⟨op, quoted, line :: lines, last⟩ line (proper.lines line List.mem_cons_self).1 visible
      simpa [DocumentText.text, DocumentText.untabbed] using skipped

theorem untabbed_delim (doc : DocumentText) : doc.untabbed.delim = doc.delim := by
  obtain ⟨op, quoted, lines, last⟩ := doc
  cases lines with
  | nil => exact @trim_trim ⟨op, quoted, [], last⟩ last
  | cons line lines => rfl

theorem untabbed_proper (proper : doc.Proper (productions fuel)) : doc.untabbed.Proper (productions fuel) := by
  obtain ⟨op, quoted, lines, last⟩ := doc
  cases lines with
  | nil =>
      have lastText := @LineText.trim ⟨op, quoted, [], last⟩ last proper.last
      exact { lines := fun _ member => (by cases member), last := lastText, expandable :=
        fun _ _ member => (by cases member) }
  | cons line lines =>
      have same := @trim_trim ⟨op, quoted, line :: lines, last⟩ line
      obtain ⟨lineTexts, lastText, expandable⟩ := proper
      rw [List.forall_mem_cons] at lineTexts
      refine ⟨List.forall_mem_cons.mpr ⟨⟨lineTexts.1.1.trim, ?_⟩, lineTexts.2⟩, lastText, fun unquoted => ?_⟩
      · exact fun equal => lineTexts.1.2 (same.symm.trans equal)
      · have expandable := expandable unquoted
        rw [List.forall_mem_cons] at expandable
        refine List.forall_mem_cons.mpr ⟨?_, expandable.2⟩
        have first := expandable.1
        rw [← same] at first
        exact first

theorem untabbed_records {before after : Parser}
    (records : Records (productions fuel) doc.untabbed redir before after) :
    Records (productions fuel) doc redir before after := by
  obtain ⟨op, quoted, lines, last⟩ := doc
  cases lines with
  | nil => exact records
  | cons line lines =>
      obtain ⟨entries, bodies, holds⟩ := records
      refine ⟨entries, bodies, ?_⟩
      cases holds with
      | cons first others =>
          refine .cons ⟨first.1, ?_⟩ others
          have same := @trim_trim ⟨op, quoted, line :: lines, last⟩ line
          rw [← same]
          exact first.2

theorem term_records {parser : Parser} {andOrList : AndOrList} (proper : doc.Proper (productions fuel))
    (command : (productions fuel).andOr parser = .done (some andOrList) read)
    (before : BeforeDocument doc redir rest read)
    (visible : StartsVisible (doc.trim doc.first)) : TermRecords (productions fuel) doc redir parser read := by
  obtain ⟨started, l, startedBuf, startedBodies, run⟩ := term_document command before
  rw [skipLines_text proper visible] at startedBuf
  have op : redir.op = doc.untabbed.op := by
    rw [before.op, DocumentText.untabbed]
    split <;> rfl
  have quoted : isWordQuoted redir.name = some doc.untabbed.quoted := by
    rw [before.quoted, DocumentText.untabbed]
    split <;> rfl
  obtain ⟨after, expected, records⟩ := expectHereDocument_text (untabbed_proper proper) op quoted startedBuf
  obtain ⟨entries, bodies, holds⟩ := untabbed_records records
  rw [untabbed_delim] at expected
  refine ⟨l, { after with hereDocuments := [] }, ?_, entries, startedBodies ▸ bodies, holds⟩
  rw [run, Run.bind_of_done expected]
  rfl

/-- A document without lines and with an empty delimiter may end with the text. -/
theorem term_records_empty {parser : Parser} {andOrList : AndOrList}
    (command : (productions fuel).andOr parser = .done (some andOrList) read)
    (before : BeforeDocument doc redir rest read)
    (noLines : doc.lines = []) (noDelim : doc.delim = []) (ended : charAt (skipLines false rest) 0 = '\x00') :
    TermRecords (productions fuel) doc redir parser read := by
  obtain ⟨started, l, startedBuf, startedBodies, run⟩ := term_document command before
  have skipped : skipLines false (doc.text ++ rest) = skipLines false rest := by
    have empty := @skipLines_empty rest doc doc.last noDelim
    simpa [DocumentText.text, noLines] using empty
  rw [skipped] at startedBuf
  obtain ⟨pos, continuationLine, step⟩ := @hereDocumentLines_step (skipLines false rest)
    { started with continuationLine := true } (productions fuel) redir (!doc.quoted) [] [] (by simp [LineText])
      (.inr ended)
    started.buf.length startedBuf
  have same : (storedLine redir [] == []) = true := by
    unfold storedLine
    split <;> rfl
  have notNewline : ¬ (charAt (skipLines false rest) 0 == '\n') = true := by rw [ended]; decide
  rw [if_pos same, if_neg notNewline] at step
  let last : Parser :=
    { { started with continuationLine := true }.moved (skipLines false rest) pos continuationLine with hasSym := false }
  have expected : expectHereDocument (productions fuel) redir doc.delim started = .done true last := by
    rw [noDelim]
    simp [expectHereDocument, before.quoted, orAbort, bufferFuel, step, consumeSymbol, last]
  refine ⟨l, { last with hereDocuments := [] }, ?_, [], ?_, ?_⟩
  · rw [run, Run.bind_of_done expected]
    rfl
  · exact startedBodies.trans (List.append_nil _).symm
  · rw [noLines]
    exact .nil

/-- What `term` records is not what is written, unless the first line starts with a symbol. -/
theorem visible_of_termRecords {parser : Parser} {andOrList : AndOrList} (proper : doc.Proper (productions fuel))
    (command : (productions fuel).andOr parser = .done (some andOrList) read)
    (before : BeforeDocument doc redir rest read)
    (records : TermRecords (productions fuel) doc redir parser read) :
    StartsVisible (doc.trim doc.first) ∨
      doc.lines = [] ∧ doc.delim = [] ∧ charAt (skipLines false rest) 0 = '\x00' := by
  obtain ⟨l, after, ended, entries, bodies, holds⟩ := records
  obtain ⟨started, other, startedBuf, startedBodies, run⟩ := term_document command before
  rw [run] at ended
  obtain ⟨found, between, expected, ended⟩ := Run.bind_done.mp ended
  cases found with
  | false => cases ended
  | true =>
      cases ended
      obtain ⟨lineFuel, last, linesRead, lastBodies⟩ := expectHereDocument_inv before.quoted expected
      obtain ⟨line, left, split, lineText, ends⟩ := exists_line started.buf
      have stored := storedLine_trim before.op line
      have lastEntries : last.bodies = started.bodies ++ entries := by
        rw [← lastBodies, startedBodies]
        exact bodies
      -- Where the line is empty, the text has ended.
      have starts : charAt left 0 = '\n' ∨ line ≠ [] → StartsVisible line := by
        intro goesOn
        rw [startedBuf] at split
        cases line with
        | nil =>
            have newline : charAt left 0 = '\n' := goesOn.resolve_right (fun nonempty => nonempty rfl)
            cases left with
            | nil => cases newline
            | cons c left =>
                have first : c = '\n' := newline
                rcases skipLines_starts split with rfl | ⟨notNewline, _⟩
                · cases first
                · exact absurd first notNewline
        | cons c line =>
            rcases skipLines_starts split with nul | ⟨_, visible⟩
            · exact absurd nul lineText.cons.1.2
            · exact ⟨c, line, rfl, visible⟩
      rcases @hereDocumentLines_first left { started with continuationLine := true } fuel redir (!doc.quoted) doc.delim
          line lineText ends lineFuel split last linesRead with
        ⟨isDelim, sameBodies⟩ | ⟨newline, word, more, moreBodies, storedAs⟩
      · have noEntries : entries = [] := by
          rw [lastEntries] at sameBodies
          exact List.append_right_eq_self.mp sameBodies
        subst noEntries
        have noLines : doc.lines = [] := by
          cases lines : doc.lines with
          | nil => rfl
          | cons first others =>
              rw [lines] at holds
              cases holds
        have delim : doc.trim doc.first = doc.delim := by simp [DocumentText.first, DocumentText.delim, noLines]
        rw [stored] at isDelim
        by_cases empty : line = []
        · subst empty
          have noDelim : doc.delim = [] := by
            rw [← isDelim]
            unfold DocumentText.trim
            split <;> rfl
          rcases ends with newline | nul
          · obtain ⟨_, _, impossible, _⟩ := starts (.inl newline)
            cases impossible
          · refine .inr ⟨noLines, noDelim, ?_⟩
            have skipped := @skipLines_empty rest doc doc.last noDelim
            have textLeft : left = skipLines false rest := by
              rw [startedBuf, DocumentText.text, noLines] at split
              rw [← skipped]
              simpa using split.symm
            exact textLeft ▸ nul
        · have visible := starts (.inr empty)
          rw [trim_visible visible] at isDelim
          exact .inl (by rw [delim, ← isDelim]; exact visible)
      · left
        have visible := starts (.inl newline)
        rw [stored, trim_visible visible] at storedAs
        have sameEntries : entries = (redir.addr, word) :: more := by
          rw [lastEntries] at moreBodies
          exact List.append_cancel_left moreBodies
        subst sameEntries
        cases lines : doc.lines with
        | nil =>
            rw [lines] at holds
            cases holds
        | cons first others =>
            have isFirst : doc.first = first := by simp [DocumentText.first, lines]
            have member : first ∈ doc.lines := by simp [lines]
            rw [lines] at holds
            cases holds with
            | cons firstStored _ =>
                have firstAs := firstStored.2
                rw [isFirst]
                cases quoted : doc.quoted with
                | true =>
                    rw [quoted] at firstAs storedAs
                    have same : mrshWordStringCreate (doc.trim first) true = mrshWordStringCreate line true :=
                      Eq.trans firstAs.symm storedAs
                    cases same
                    exact visible
                | false =>
                    rw [quoted] at firstAs storedAs
                    have notNull : word ≠ .null := by
                      obtain ⟨state, error, ended, firstRead⟩ : LineWord (productions fuel) (doc.trim first) word :=
                        firstAs
                      obtain ⟨other, _, _, otherRead, notNull⟩ := proper.expandable quoted first member state
                      cases firstRead.symm.trans otherRead
                      exact notNull
                    rw [← lineWord_visible (proper.lines first member).1.trim firstAs notNull]
                    exact (lineWord_visible lineText storedAs notNull).mpr visible

end

/-- A here-document is recorded as it is written both in a compound command and at the top level if and only if its
first line starts with a symbol, except where it has no line, no delimiter and no text after it. -/
theorem documents_recorded_iff {fuel : Nat} {doc : DocumentText} (proper : doc.Proper (productions fuel))
    {parser read : Parser} {redir : IoRedirect} {rest : Str} {andOrList : AndOrList}
    (command : (productions fuel).andOr parser = .done (some andOrList) read)
    (before : BeforeDocument doc redir rest read)
    {topParser between topRead : Parser} {topRedir : IoRedirect} {topRest : Str} {l : CommandList}
    {cmds : List CommandList}
    (first : list (productions fuel) topParser = .done (some l) between)
    (others : collect (list (productions fuel)) (productions fuel).fuel [l] between = .done cmds topRead)
    (topBefore : BeforeDocument doc topRedir topRest topRead) :
    (TermRecords (productions fuel) doc redir parser read ∧
      CompleteRecords (productions fuel) doc topRedir topParser topRead) ↔
      StartsVisible (doc.trim doc.first) ∨
        doc.lines = [] ∧ doc.delim = [] ∧ charAt (skipLines false rest) 0 = '\x00' := by
  constructor
  · rintro ⟨records, _⟩
    exact visible_of_termRecords proper command before records
  · intro holds
    refine ⟨?_, completeCommand_records proper first others topBefore⟩
    rcases holds with visible | ⟨noLines, noDelim, ended⟩
    · exact term_records proper command before visible
    · exact term_records_empty command before noLines noDelim ended

/-- The redirection whose document comes next. -/
def documentAt (doc : DocumentText) (rest : Str) (parser : Parser) : Option IoRedirect :=
  match parser.hereDocuments with
  | [redir] =>
      if redir.op = doc.op ∧ mrshWordStr redir.name = some doc.delim ∧ isWordQuoted redir.name = some doc.quoted ∧
          parser.sym = .newline ∧ parser.buf = '\n' :: (doc.text ++ rest) then some redir
      else none
  | _ => none

theorem documentAt_before {doc : DocumentText} {redir : IoRedirect} (found : documentAt doc rest parser = some redir) :
    BeforeDocument doc redir rest parser := by
  unfold documentAt at found
  split at found
  · rename_i pending
    split at found
    · rename_i holds
      obtain ⟨op, delim, quoted, sym, buf⟩ := holds
      cases found
      exact ⟨pending, op, delim, quoted, fun _ => sym, buf⟩
    · cases found
  · cases found

/-- `cat <<E` with one line, before the end of a compound command and at the top level. -/
theorem documents_recorded_one : ∃ redir read topRedir topRead,
    TermRecords (productions 8) ⟨.dless, false, [['x']], ['E']⟩ redir
      (mrshParserWithData "cat <<E\nx\nE\n\x7d\n".toList) read ∧
    CompleteRecords (productions 8) ⟨.dless, false, [['x']], ['E']⟩ topRedir
      (mrshParserWithData "cat <<E\nx\nE\n".toList) topRead := by
  let parser := mrshParserWithData "cat <<E\nx\nE\n\x7d\n".toList
  let topParser := mrshParserWithData "cat <<E\nx\nE\n".toList
  let others (l : CommandList) := collect (list (productions 8)) (productions 8).fuel [l]
    (list (productions 8) topParser).state
  have checked : ((productions 8).andOr parser).value?.join.isSome = true ∧
      (documentAt ⟨.dless, false, [['x']], ['E']⟩ "\x7d\n".toList ((productions 8).andOr parser).state).isSome =
        true := by
    decide +kernel
  have topChecked : (list (productions 8) topParser).value?.join.map (fun l => (others l).value?.isSome &&
      (documentAt ⟨.dless, false, [['x']], ['E']⟩ [] (others l).state).isSome) = some true := by
    decide +kernel
  have proper : DocumentText.Proper (productions 8) ⟨.dless, false, [['x']], ['E']⟩ := by
    refine ⟨by simp [LineText, DocumentText.trim, DocumentText.delim], by simp [LineText], fun _ line member => ?_⟩
    obtain rfl := List.mem_singleton.mp member
    intro parser
    refine ⟨literalLine ['x'], none, parser, ?_, by simp [literalLine, mrshWordStringCreate]⟩
    rfl
  obtain ⟨andOrList, read⟩ := Option.isSome_iff_exists.mp checked.1
  obtain ⟨redir, found⟩ := Option.isSome_iff_exists.mp checked.2
  obtain ⟨l, first, isRead⟩ := Option.map_eq_some_iff.mp topChecked
  obtain ⟨collected, topIsSome⟩ := Bool.and_eq_true_iff.mp isRead
  obtain ⟨cmds, rest⟩ := Option.isSome_iff_exists.mp collected
  obtain ⟨topRedir, topFound⟩ := Option.isSome_iff_exists.mp topIsSome
  exact ⟨redir, _, topRedir, _,
    (documents_recorded_iff proper (Outcome.eq_done_some_of_value? read) (documentAt_before found)
      (Outcome.eq_done_some_of_value? first) (Outcome.eq_done_of_value? rest) (documentAt_before topFound)).mpr
        (.inl (by decide))⟩

/-- The line ` x` is stored without its blank in a compound command. -/
theorem compoundDocument_loses_blank :
    let compound := mrshParseProgram 10 (mrshParserWithData "\x7b cat <<E\n x\nE\n\x7d\n".toList)
    let topLevel := mrshParseProgram 10 (mrshParserWithData "cat <<E\n x\nE\n".toList)
    compound.value?.map (·.isSome) = some true ∧ compound.state.error = none ∧
      compound.state.bodies.map (fun entry => mrshWordStr entry.2) = [some ['x']] ∧
      topLevel.value?.map (·.isSome) = some true ∧ topLevel.state.error = none ∧
      topLevel.state.bodies.map (fun entry => mrshWordStr entry.2) = [some [' ', 'x']] := by
  decide +kernel

end Mrsh
