import Mrsh.Parser.Symbols

namespace Mrsh

open Mrsh.Data

/-! # Quoted text

The word that `word` reads for a text all of whose characters are quoted. Single
and double quotes make a child of their own, the characters after backslashes
join up to the next quotes and are no longer marked as quoted.
-/

/-- The characters that a text stands for between double quotes. It has no dollar, back quote
or double quote that is not escaped, and no backslash at its end. -/
def unescape : Str → Option Str
  | [] => some []
  | '\\' :: c :: rest =>
      if c = '\n' then unescape rest
      else if c = '$' ∨ c = '\x60' ∨ c = '"' ∨ c = '\\' then (unescape rest).map (c :: ·)
      else (unescape (c :: rest)).map ('\\' :: ·)
  | c :: rest =>
      if c = '\\' ∨ c = '$' ∨ c = '\x60' ∨ c = '"' ∨ c = '\x00' then none
      else (unescape rest).map (c :: ·)

/-- A quoted part of a word. Nothing but characters can follow backslashes. -/
inductive Segment where
  | single (chars : Str) (quotable : ∀ c ∈ chars, c ≠ '\'' ∧ c ≠ '\x00')
  | double (raw chars : Str) (unescaped : unescape raw = some chars)
  | backslash (chars : Str) (written : chars ≠ []) (quotable : ∀ c ∈ chars, c ≠ '\n' ∧ c ≠ '\x00')

namespace Segment

def text : Segment → Str
  | .single chars _ => '\'' :: (chars ++ ['\''])
  | .double raw _ _ => '"' :: (raw ++ ['"'])
  | .backslash chars _ _ => chars.flatMap fun c => ['\\', c]

def chars : Segment → Str
  | .single chars _ => chars
  | .double _ chars _ => chars
  | .backslash chars _ _ => chars

end Segment

def segmentsText (segments : List Segment) : Str := segments.flatMap Segment.text

def segmentsChars (segments : List Segment) : Str := segments.flatMap Segment.chars

/-- A child of the word. -/
inductive Part where
  | plain (chars : Str)
  | single (chars : Str)
  | double (chars : Str)
deriving DecidableEq

namespace Part

/-- The copy of the child, which has no positions. -/
def word : Part → Word
  | .plain chars => .string chars false false .invalid
  | .single chars => .string chars true false .invalid
  | .double chars =>
      .list (if chars.isEmpty then [] else [.string chars false false .invalid]) true .invalid .invalid

def flush (buf : Str) : List Part := if buf.isEmpty then [] else [.plain buf]

end Part

/-- The children for the characters in the buffer and the segments after them. -/
def assemble (buf : Str) : List Segment → List Part
  | [] => Part.flush buf
  | .backslash chars _ _ :: segments => assemble (buf ++ chars) segments
  | .single chars _ :: segments => Part.flush buf ++ .single chars :: assemble [] segments
  | .double _ chars _ :: segments => Part.flush buf ++ .double chars :: assemble [] segments

/-- The only child, or the list of the children. -/
def wordOf : List Word → Word
  | [word] => word
  | words => .list words false .invalid .invalid

/-! ## Single quotes -/

variable {rest : Str} {parser : Parser}

theorem Parser.moved_moved (parser : Parser) (first second : Str) (firstPos secondPos : Position)
    (firstLine secondLine : Bool) :
    (parser.moved first firstPos firstLine).moved second secondPos secondLine =
      parser.moved second secondPos secondLine := rfl

theorem readContinuationLine_moved (buf : parser.buf = '\n' :: rest) :
    readContinuationLine parser = .done () (parser.moved rest (parser.pos.advance '\n') true) := by
  simp [readContinuationLine, parserReadChar_cons buf (by decide), assert, Parser.moved]

theorem parserPeekChar_of {c : Char} (peeked : charAt parser.buf 0 = c) :
    parserPeekChar parser = .done c parser := by
  rw [← peeked]
  rfl

theorem singleQuotesLoop_reads (begin : Position) (chars : Str) (acc : Str) (fuel : Nat) (parser : Parser)
    (quotable : ∀ c ∈ chars, c ≠ '\'' ∧ c ≠ '\x00') (buf : parser.buf = chars ++ '\'' :: rest)
    (enough : chars.length < fuel) :
    ∃ range pos line, singleQuotesLoop begin fuel acc parser =
      .done (some (.string (acc ++ chars) true false range)) (parser.moved rest pos line) := by
  induction chars generalizing acc fuel parser with
  | nil =>
      obtain ⟨fuel, rfl⟩ : ∃ more, fuel = more + 1 := ⟨fuel - 1, by simp at enough; omega⟩
      have peeked : charAt parser.buf 0 = '\'' := by rw [buf]; rfl
      have read := parserReadChar_cons buf (by decide)
      refine ⟨⟨begin, parser.pos.advance '\''⟩, parser.pos.advance '\'', false, ?_⟩
      rw [singleQuotesLoop, Run.bind_of_done (parserPeekChar_of peeked), if_neg (by decide),
        if_pos (by decide), Run.bind_of_done read, List.append_nil]
      rfl
  | cons c chars ih =>
      obtain ⟨fuel, rfl⟩ : ∃ more, fuel = more + 1 := ⟨fuel - 1, by simp at enough; omega⟩
      rw [List.forall_mem_cons] at quotable
      have peeked : charAt parser.buf 0 = c := by rw [buf]; rfl
      have next : ∀ line, ∃ range pos after,
          singleQuotesLoop begin fuel (acc ++ [c]) (parser.moved (chars ++ '\'' :: rest) (parser.pos.advance c) line) =
            .done (some (.string (acc ++ c :: chars) true false range)) (parser.moved rest pos after) := by
        intro line
        have read := ih (acc ++ [c]) fuel (parser.moved (chars ++ '\'' :: rest) (parser.pos.advance c) line)
          quotable.2 rfl (by simpa using enough)
        rwa [List.append_assoc] at read
      by_cases newline : c = '\n'
      · subst newline
        obtain ⟨range, pos, line, read⟩ := next true
        refine ⟨range, pos, line, ?_⟩
        rw [singleQuotesLoop, Run.bind_of_done (parserPeekChar_of peeked), if_neg (by decide),
          if_neg (by decide), if_pos (by decide), Run.bind_of_done (readContinuationLine_moved buf)]
        exact read
      · obtain ⟨range, pos, line, read⟩ := next false
        refine ⟨range, pos, line, ?_⟩
        rw [singleQuotesLoop, Run.bind_of_done (parserPeekChar_of peeked), if_neg (by simpa using quotable.1.2),
          if_neg (by simpa using quotable.1.1), if_neg (by simpa using newline),
          Run.bind_of_done (parserReadChar_cons buf quotable.1.2)]
        exact read

theorem singleQuotes_reads (chars : Str) (quotable : ∀ c ∈ chars, c ≠ '\'' ∧ c ≠ '\x00')
    (buf : parser.buf = '\'' :: (chars ++ ['\'']) ++ rest) :
    ∃ range pos line, singleQuotes parser =
      .done (some (.string chars true false range)) (parser.moved rest pos line) := by
  have opened : parser.buf = '\'' :: (chars ++ '\'' :: rest) := by simpa using buf
  obtain ⟨range, pos, line, read⟩ := singleQuotesLoop_reads parser.pos chars []
    ((chars ++ '\'' :: rest).length + 1)
    (parser.moved (chars ++ '\'' :: rest) (parser.pos.advance '\'') false) quotable rfl (by grind)
  refine ⟨range, pos, line, ?_⟩
  simpa [singleQuotes, getPos, parserReadChar_cons opened (by decide), assert, bufferFuel, Parser.moved] using read

/-! ## Double quotes -/

@[simp] theorem WordBuilder.startAt_children (builder : WordBuilder) (pos : Position) :
    (builder.startAt pos).children = builder.children := by
  unfold startAt
  split <;> rfl

@[simp] theorem WordBuilder.startAt_buf (builder : WordBuilder) (pos : Position) :
    (builder.startAt pos).buf = builder.buf := by
  unfold startAt
  split <;> rfl

/-- The children after the characters in the buffer were made one, up to its range. -/
theorem WordBuilder.push_children (builder : WordBuilder) (pos : Position) :
    ∃ range, (builder.push pos).children =
      builder.children ++ if builder.buf.isEmpty then [] else [.string builder.buf false false range] := by
  unfold push
  split <;> simp

@[simp] theorem WordBuilder.push_buf (builder : WordBuilder) (pos : Position) : (builder.push pos).buf = [] := by
  unfold push
  split
  · simpa using ‹builder.buf.isEmpty = true›
  · rfl

theorem parserPeekAt_of {c : Char} (i : Nat) (peeked : charAt parser.buf i = c) :
    parserPeekAt i parser = .done c parser := by
  rw [← peeked]
  rfl

/-- The characters that `double_quotes` looks at before backslashes. -/
def EndsDoubleQuoted (c : Char) : Prop := c = '$' ∨ c = '\x60' ∨ c = '"' ∨ c = '\x00'

section

variable (self : Productions) (lquotePos : Position) (fuel : Nat) (builder : WordBuilder)

theorem doubleQuotesLoop_char {c : Char} (buf : parser.buf = c :: rest) (plain : ¬ EndsDoubleQuoted c)
    (unescaped : c = '\\' → charAt rest 0 ∉ ['\n', '$', '\x60', '"', '\\']) :
    doubleQuotesLoop self lquotePos (fuel + 1) builder parser =
      doubleQuotesLoop self lquotePos fuel ((builder.startAt parser.pos).appendChar c)
        (parser.moved rest (parser.pos.advance c) false) := by
  have peeked : charAt parser.buf 0 = c := by rw [buf]; rfl
  have peekedNext : charAt parser.buf 1 = charAt rest 0 := by rw [buf]; rfl
  simp only [EndsDoubleQuoted, not_or] at plain
  obtain ⟨dollar, backQuote, quote, end_⟩ := plain
  have notContinued : ¬ (c == '\\' && charAt rest 0 == '\n') = true := by
    by_cases backslash : c = '\\' <;> simp_all
  have notEscaped : ¬ (c == '\\' && (charAt rest 0 == '$' || charAt rest 0 == '\x60' || charAt rest 0 == '"' ||
      charAt rest 0 == '\\')) = true := by
    by_cases backslash : c = '\\' <;> simp_all
  rw [doubleQuotesLoop, getPos, Run.gets_bind,
    Run.bind_of_done (parserPeekChar_of peeked), if_neg (by simpa using end_), if_neg (by simpa using quote),
    if_neg (by simpa using dollar), if_neg (by simpa using backQuote),
    Run.bind_of_done (parserPeekAt_of 1 peekedNext), if_neg notContinued, if_neg notEscaped]
  beta_reduce
  rw [Run.bind_of_done (parserReadChar_cons buf end_), if_neg notEscaped]

theorem doubleQuotesLoop_escaped {c : Char} (buf : parser.buf = '\\' :: c :: rest)
    (special : c = '$' ∨ c = '\x60' ∨ c = '"' ∨ c = '\\') :
    ∃ pos, doubleQuotesLoop self lquotePos (fuel + 1) builder parser =
      doubleQuotesLoop self lquotePos fuel ((builder.startAt parser.pos).appendChar c)
        (parser.moved rest pos false) := by
  have peeked : charAt parser.buf 0 = '\\' := by rw [buf]; rfl
  have peekedNext : charAt parser.buf 1 = c := by rw [buf]; rfl
  have visible : c ≠ '\x00' := by rcases special with rfl | rfl | rfl | rfl <;> decide
  have notContinued : ¬ ('\\' == '\\' && c == '\n') = true := by
    rcases special with rfl | rfl | rfl | rfl <;> decide
  have escaped : ('\\' == '\\' && (c == '$' || c == '\x60' || c == '"' || c == '\\')) = true := by
    rcases special with rfl | rfl | rfl | rfl <;> decide
  have read : parserReadChar (parser.moved (c :: rest) (parser.pos.advance '\\') false) = _ :=
    parserReadChar_cons rfl visible
  refine ⟨(parser.pos.advance '\\').advance c, ?_⟩
  rw [doubleQuotesLoop, getPos, Run.gets_bind,
    Run.bind_of_done (parserPeekChar_of peeked), if_neg (by decide), if_neg (by decide), if_neg (by decide),
    if_neg (by decide), Run.bind_of_done (parserPeekAt_of 1 peekedNext), if_neg notContinued, if_pos escaped,
    Run.bind_of_done (parserReadChar_cons buf (by decide))]
  beta_reduce
  rw [Run.bind_of_done read, if_pos escaped]
  rfl

theorem doubleQuotesLoop_continued (buf : parser.buf = '\\' :: '\n' :: rest) :
    ∃ pos, doubleQuotesLoop self lquotePos (fuel + 1) builder parser =
      doubleQuotesLoop self lquotePos fuel (builder.startAt parser.pos) (parser.moved rest pos true) := by
  have peeked : charAt parser.buf 0 = '\\' := by rw [buf]; rfl
  have peekedNext : charAt parser.buf 1 = '\n' := by rw [buf]; rfl
  have read : readContinuationLine (parser.moved ('\n' :: rest) (parser.pos.advance '\\') false) = _ :=
    readContinuationLine_moved rfl
  refine ⟨(parser.pos.advance '\\').advance '\n', ?_⟩
  rw [doubleQuotesLoop, getPos, Run.gets_bind,
    Run.bind_of_done (parserPeekChar_of peeked), if_neg (by decide), if_neg (by decide), if_neg (by decide),
    if_neg (by decide), Run.bind_of_done (parserPeekAt_of 1 peekedNext), if_pos (by decide),
    Run.bind_of_done (parserReadChar_cons buf (by decide)), Run.bind_of_done read]
  rfl

theorem doubleQuotesLoop_end (buf : parser.buf = '"' :: rest) (childless : builder.children = []) :
    ∃ range rquotePos pos, doubleQuotesLoop self lquotePos (fuel + 1) builder parser =
      .done (some (.list (if builder.buf.isEmpty then [] else [.string builder.buf false false range]) true
        lquotePos rquotePos)) (parser.moved rest pos false) := by
  have peeked : charAt parser.buf 0 = '"' := by rw [buf]; rfl
  obtain ⟨range, pushed⟩ := (builder.startAt parser.pos).push_children parser.pos
  rw [WordBuilder.startAt_children, WordBuilder.startAt_buf, childless, List.nil_append] at pushed
  refine ⟨range, parser.pos, parser.pos.advance '"', ?_⟩
  rw [doubleQuotesLoop, getPos, Run.gets_bind,
    Run.bind_of_done (parserPeekChar_of peeked), if_neg (by decide), if_pos (by decide),
    Run.bind_of_done (parserReadChar_cons buf (by decide)), pushed]
  rfl

end

theorem doubleQuotesLoop_reads (self : Productions) (lquotePos : Position) {raw chars : Str}
    (unescaped : unescape raw = some chars) (fuel : Nat) (builder : WordBuilder) (parser : Parser)
    (childless : builder.children = []) (buf : parser.buf = raw ++ '"' :: rest) (enough : raw.length < fuel) :
    ∃ range rquotePos pos line, doubleQuotesLoop self lquotePos fuel builder parser =
      .done (some (.list (if (builder.buf ++ chars).isEmpty then []
          else [.string (builder.buf ++ chars) false false range]) true lquotePos rquotePos))
        (parser.moved rest pos line) := by
  fun_induction unescape raw generalizing chars fuel builder parser with
  | case1 =>
      obtain ⟨fuel, rfl⟩ : ∃ more, fuel = more + 1 := ⟨fuel - 1, by simp at enough; omega⟩
      cases unescaped
      rw [List.append_nil]
      obtain ⟨range, rquotePos, pos, ended⟩ := doubleQuotesLoop_end self lquotePos fuel builder buf childless
      exact ⟨range, rquotePos, pos, false, ended⟩
  | case2 raw ih =>
      obtain ⟨fuel, rfl⟩ : ∃ more, fuel = more + 1 := ⟨fuel - 1, by simp at enough; omega⟩
      obtain ⟨pos, step⟩ := doubleQuotesLoop_continued self lquotePos fuel builder buf
      rw [step, ← builder.startAt_buf parser.pos]
      exact ih unescaped fuel _ (parser.moved (raw ++ '"' :: rest) pos true) (by simp [childless]) rfl
        (by simp at enough; omega)
  | case3 c raw _ special ih =>
      obtain ⟨fuel, rfl⟩ : ∃ more, fuel = more + 1 := ⟨fuel - 1, by simp at enough; omega⟩
      obtain ⟨chars, restUnescaped, rfl⟩ := Option.map_eq_some_iff.mp unescaped
      obtain ⟨pos, step⟩ := doubleQuotesLoop_escaped self lquotePos fuel builder buf special
      have read := ih restUnescaped fuel ((builder.startAt parser.pos).appendChar c)
        (parser.moved (raw ++ '"' :: rest) pos false) (by simp [WordBuilder.appendChar, childless]) rfl
        (by simp at enough; omega)
      rw [step]
      simpa [WordBuilder.appendChar, Parser.moved_moved] using read
  | case4 c raw notNewline ordinary ih =>
      obtain ⟨fuel, rfl⟩ : ∃ more, fuel = more + 1 := ⟨fuel - 1, by simp at enough; omega⟩
      obtain ⟨chars, restUnescaped, rfl⟩ := Option.map_eq_some_iff.mp unescaped
      have step := doubleQuotesLoop_char self lquotePos fuel builder buf (by unfold EndsDoubleQuoted; decide)
        (fun _ => by simpa [charAt, notNewline] using ordinary)
      have read := ih restUnescaped fuel ((builder.startAt parser.pos).appendChar '\\')
        (parser.moved (c :: raw ++ '"' :: rest) (parser.pos.advance '\\') false)
        (by simp [WordBuilder.appendChar, childless]) rfl (by simp at enough ⊢; omega)
      rw [step]
      simpa [WordBuilder.appendChar, Parser.moved_moved] using read
  | case5 => cases unescaped
  | case6 c raw _ plain ih =>
      obtain ⟨fuel, rfl⟩ : ∃ more, fuel = more + 1 := ⟨fuel - 1, by simp at enough; omega⟩
      obtain ⟨chars, restUnescaped, rfl⟩ := Option.map_eq_some_iff.mp unescaped
      rw [not_or] at plain
      have step := doubleQuotesLoop_char self lquotePos fuel builder buf plain.2
        (fun backslash => absurd backslash plain.1)
      have read := ih restUnescaped fuel ((builder.startAt parser.pos).appendChar c)
        (parser.moved (raw ++ '"' :: rest) (parser.pos.advance c) false)
        (by simp [WordBuilder.appendChar, childless]) rfl (by simp at enough; omega)
      rw [step]
      simpa [WordBuilder.appendChar, Parser.moved_moved] using read

theorem doubleQuotes_reads (self : Productions) {raw chars : Str} (unescaped : unescape raw = some chars)
    (buf : parser.buf = '"' :: (raw ++ ['"']) ++ rest) :
    ∃ range lquotePos rquotePos pos line, doubleQuotes self parser =
      .done (some (.list (if chars.isEmpty then [] else [.string chars false false range]) true lquotePos
        rquotePos)) (parser.moved rest pos line) := by
  have opened : parser.buf = '"' :: (raw ++ '"' :: rest) := by simpa using buf
  obtain ⟨range, rquotePos, pos, line, read⟩ := doubleQuotesLoop_reads self parser.pos unescaped
    ((raw ++ '"' :: rest).length + 1) .empty
    (parser.moved (raw ++ '"' :: rest) (parser.pos.advance '"') false) rfl rfl (by grind)
  refine ⟨range, parser.pos, rquotePos, pos, line, ?_⟩
  rw [doubleQuotes, getPos, Run.gets_bind, Run.bind_of_done (parserReadChar_cons opened (by decide))]
  exact read

/-! ## What double quotes stand for -/

/-- The characters before which a backslash goes away. -/
def isEscapable (c : Char) : Bool := c == '$' || c == '\x60' || c == '"' || c == '\\'

/-- Every dollar, back quote and double quote is escaped, and so is not the closing quote. -/
def isDoubleQuotable : Str → Bool
  | [] => true
  | '\\' :: c :: rest => c != '\x00' && isDoubleQuotable rest
  | c :: rest => !isEscapable c && c != '\x00' && isDoubleQuotable rest

def decodeDoubleQuoted : Str → Str
  | [] => []
  | '\\' :: c :: rest =>
      if c = '\n' then decodeDoubleQuoted rest
      else if isEscapable c then c :: decodeDoubleQuoted rest
      else '\\' :: c :: decodeDoubleQuoted rest
  | c :: rest => c :: decodeDoubleQuoted rest

def escapeDoubleQuoted (str : Str) : Str := str.flatMap fun c => if isEscapable c then ['\\', c] else [c]

theorem isEscapable_iff {c : Char} : isEscapable c = true ↔ c = '$' ∨ c = '\x60' ∨ c = '"' ∨ c = '\\' := by
  simp [isEscapable, or_assoc]

theorem unescape_cons {c : Char} (rest : Str) (plain : isEscapable c = false) (visible : c ≠ '\x00') :
    unescape (c :: rest) = (unescape rest).map (c :: ·) := by
  have ordinary : ¬ (c = '\\' ∨ c = '$' ∨ c = '\x60' ∨ c = '"' ∨ c = '\x00') := by
    have none := mt isEscapable_iff.mpr (ne_true_of_eq_false plain)
    tauto
  have unslashed : ∀ (d : Char) (more : Str), c = '\\' → rest = d :: more → False := by
    rintro d more rfl
    exact absurd (.inl rfl) ordinary
  rw [unescape]
  · rw [if_neg ordinary]
  · exact unslashed

theorem unescape_quotable (raw : Str) (quotable : isDoubleQuotable raw = true) :
    unescape raw = some (decodeDoubleQuoted raw) := by
  fun_induction isDoubleQuotable raw with
  | case1 => rfl
  | case2 c rest ih =>
      obtain ⟨visible, quotable⟩ := Bool.and_eq_true_iff.mp quotable
      have read := ih quotable
      rw [unescape, decodeDoubleQuoted]
      by_cases newline : c = '\n'
      · rw [if_pos newline, if_pos newline, read]
      · rw [if_neg newline, if_neg newline]
        cases escapable : isEscapable c with
        | true => rw [if_pos (isEscapable_iff.mp escapable), if_pos rfl, read, Option.map_some]
        | false =>
            rw [if_neg (mt isEscapable_iff.mpr (ne_true_of_eq_false escapable)), if_neg Bool.false_ne_true,
              unescape_cons rest escapable (by simpa using visible), read]
            rfl
  | case3 c rest other ih =>
      obtain ⟨ordinary, quotable⟩ := Bool.and_eq_true_iff.mp quotable
      obtain ⟨plain, visible⟩ := Bool.and_eq_true_iff.mp ordinary
      rw [unescape_cons rest (by simpa using plain) (by simpa using visible), ih quotable, decodeDoubleQuoted]
      · rfl
      · exact other

theorem escapeDoubleQuoted_reads (str : Str) (visible : '\x00' ∉ str) :
    isDoubleQuotable (escapeDoubleQuoted str) = true ∧ decodeDoubleQuoted (escapeDoubleQuoted str) = str := by
  induction str with
  | nil => exact ⟨rfl, rfl⟩
  | cons c str ih =>
      rw [List.mem_cons, not_or] at visible
      obtain ⟨quotable, decoded⟩ := ih visible.2
      have seen : (c != '\x00') = true := bne_iff_ne.mpr (Ne.symm visible.1)
      rw [escapeDoubleQuoted, List.flatMap_cons]
      change isDoubleQuotable (_ ++ escapeDoubleQuoted str) = true ∧
        decodeDoubleQuoted (_ ++ escapeDoubleQuoted str) = c :: str
      cases escapable : isEscapable c with
      | true =>
          have notNewline : c ≠ '\n' := by
            rintro rfl
            exact absurd escapable (by decide)
          rw [if_pos rfl, List.cons_append, List.cons_append, List.nil_append, isDoubleQuotable, decodeDoubleQuoted,
            if_neg notNewline, if_pos escapable, seen, quotable, decoded]
          exact ⟨rfl, rfl⟩
      | false =>
          have unslashed : ∀ (d : Char) (more : Str), c = '\\' → escapeDoubleQuoted str = d :: more → False := by
            rintro d more rfl
            exact absurd escapable (by decide)
          rw [if_neg Bool.false_ne_true, List.cons_append, List.nil_append, isDoubleQuotable, decodeDoubleQuoted,
            escapable,
            seen, quotable, decoded]
          · exact ⟨rfl, rfl⟩
          · exact unslashed
          · exact unslashed

/-- The characters are read as one unquoted string, if there are any, up to the closing quote. -/
def ReadsDoubleQuoted (self : Productions) (parser : Parser) (chars rest : Str) : Prop :=
  ∃ range lquotePos rquotePos pos line, doubleQuotes self parser =
    .done (some (.list (if chars.isEmpty then [] else [.string chars false false range]) true lquotePos rquotePos))
      (parser.moved rest pos line)

/-- Every text without an unescaped dollar, back quote or double quote is decoded, and every text in which the four
characters were escaped is read back. -/
theorem doubleQuotes_decodes (self : Productions) (parser : Parser) (rest : Str) :
    (∀ raw : Str, isDoubleQuotable raw = true → parser.buf = '"' :: (raw ++ ['"']) ++ rest →
      ReadsDoubleQuoted self parser (decodeDoubleQuoted raw) rest) ∧
    ∀ str : Str, '\x00' ∉ str → parser.buf = '"' :: (escapeDoubleQuoted str ++ ['"']) ++ rest →
      ReadsDoubleQuoted self parser str rest := by
  have decodes : ∀ raw : Str, isDoubleQuotable raw = true → parser.buf = '"' :: (raw ++ ['"']) ++ rest →
      ReadsDoubleQuoted self parser (decodeDoubleQuoted raw) rest :=
    fun raw quotable buf => doubleQuotes_reads self (unescape_quotable raw quotable) buf
  refine ⟨decodes, fun str visible buf => ?_⟩
  obtain ⟨quotable, decoded⟩ := escapeDoubleQuoted_reads str visible
  have read := decodes (escapeDoubleQuoted str) quotable buf
  rwa [decoded] at read

theorem doubleQuotes_decodes_dollar :
    ReadsDoubleQuoted (productions 0) (mrshParserWithData "\"a\\$\\a\"".toList) "a$\\a".toList [] ∧
      ReadsDoubleQuoted (productions 0) (mrshParserWithData "\"a\\$\\\\a\"".toList) "a$\\a".toList [] :=
  ⟨(doubleQuotes_decodes (productions 0) (mrshParserWithData "\"a\\$\\a\"".toList) []).1 "a\\$\\a".toList
      (by decide) (by decide),
    (doubleQuotes_decodes (productions 0) (mrshParserWithData "\"a\\$\\\\a\"".toList) []).2 "a$\\a".toList
      (by decide) (by decide)⟩

/-! ## The word -/

/-- The text after the word starts with a character that ends it. -/
def StopsWord (tail : Str) : Prop :=
  let c := charAt tail 0
  c = '\x00' ∨ c = '\n' ∨ c = ')' ∨ isOperatorStart c = true ∨ isBlank c = true

section

variable (self : Productions) (fuel : Nat) (builder : WordBuilder)

theorem wordLoop_stops (stops : StopsWord parser.buf) :
    wordLoop self '\x00' (fuel + 1) builder parser =
      .done (some ((builder.startAt parser.pos).push parser.pos).word) { parser with hasSym := false } := by
  have ended : finishWord (builder.startAt parser.pos) parser =
      .done (some ((builder.startAt parser.pos).push parser.pos).word) { parser with hasSym := false } := rfl
  rw [← ended, wordLoop, getPos, Run.gets_bind, Run.bind_of_done (parserPeekChar_of rfl)]
  unfold StopsWord at stops
  by_cases first : (charAt parser.buf 0 == '\x00' || charAt parser.buf 0 == '\n' || charAt parser.buf 0 == ')' ||
      charAt parser.buf 0 == '\x00') = true
  · rw [if_pos first]
  · have operator : (isOperatorStart (charAt parser.buf 0) || isBlank (charAt parser.buf 0)) = true := by
      simp only [Bool.or_eq_true, beq_iff_eq, not_or] at first
      simpa [first] using stops
    have ne : ∀ c : Char, (isOperatorStart c || isBlank c) = false → ¬ (charAt parser.buf 0 == c) = true := by
      intro c other same
      rw [eq_of_beq same, other] at operator
      cases operator
    rw [if_neg first, if_neg (ne _ (by decide)), if_neg (ne _ (by decide)), if_neg (ne _ (by decide)),
      if_neg (ne _ (by decide)), if_neg (ne _ (by decide)), if_pos operator]

theorem wordLoop_end (stops : StopsWord parser.buf) :
    ∃ builderEnd after, wordLoop self '\x00' (fuel + 1) builder parser = .done (some builderEnd.word) after ∧
      (∃ pos, builderEnd = (builder.startAt parser.pos).push pos) ∧
      after = { parser with hasSym := false } :=
  ⟨_, _, wordLoop_stops self fuel builder stops, ⟨parser.pos, rfl⟩, rfl⟩

theorem wordLoop_backslash {c : Char} (buf : parser.buf = '\\' :: c :: rest) (newline : c ≠ '\n')
    (visible : c ≠ '\x00') :
    ∃ pos, wordLoop self '\x00' (fuel + 1) builder parser =
      wordLoop self '\x00' fuel ((builder.startAt parser.pos).appendChar c) (parser.moved rest pos false) := by
  have peeked : charAt parser.buf 0 = '\\' := by rw [buf]; rfl
  have next : parserPeekChar (parser.moved (c :: rest) (parser.pos.advance '\\') false) = .done c _ :=
    parserPeekChar_of rfl
  have read : parserReadChar (parser.moved (c :: rest) (parser.pos.advance '\\') false) = _ :=
    parserReadChar_cons rfl visible
  refine ⟨(parser.pos.advance '\\').advance c, ?_⟩
  rw [wordLoop, getPos, Run.gets_bind,
    Run.bind_of_done (parserPeekChar_of peeked), if_neg (by decide), if_neg (by decide), if_neg (by decide),
    if_neg (by decide), if_neg (by decide), if_pos (by decide),
    Run.bind_of_done (parserReadChar_cons buf (by decide)), Run.bind_of_done next,
    if_neg (by simpa using newline), Run.bind_of_done read]
  rfl

/-- Quotes, whose child goes after that of the characters in the buffer. -/
theorem wordLoop_quotes {quote : Char} {child : Parse (Option Word)} {word : Word} {after : Parser}
    (starts : charAt parser.buf 0 = quote)
    (quotes : (quote = '\'' ∧ child = singleQuotes) ∨ (quote = '"' ∧ child = doubleQuotes self))
    (read : child parser = .done (some word) after) :
    wordLoop self '\x00' (fuel + 1) builder parser =
      wordLoop self '\x00' fuel (((builder.startAt parser.pos).push parser.pos).add word) after := by
  have nested : nestedWord (builder.startAt parser.pos) child (wordLoop self '\x00' fuel) parser =
      wordLoop self '\x00' fuel (((builder.startAt parser.pos).push parser.pos).add word) after := by
    unfold nestedWord
    rw [getPos, Run.gets_bind, Run.bind_of_done read]
  rw [← nested, wordLoop, getPos, Run.gets_bind, Run.bind_of_done (parserPeekChar_of starts)]
  rcases quotes with ⟨rfl, rfl⟩ | ⟨rfl, rfl⟩
  · rw [if_neg (by decide), if_neg (by decide), if_neg (by decide), if_pos (by decide)]
  · rw [if_neg (by decide), if_neg (by decide), if_neg (by decide), if_neg (by decide), if_pos (by decide)]

end

theorem wordLoop_backslashes (self : Productions) (chars : Str) (quotable : ∀ c ∈ chars, c ≠ '\n' ∧ c ≠ '\x00')
    (fuel : Nat) (builder : WordBuilder) (parser : Parser)
    (buf : parser.buf = (chars.flatMap fun c => ['\\', c]) ++ rest) :
    ∃ between pos line, wordLoop self '\x00' (fuel + chars.length) builder parser =
        wordLoop self '\x00' fuel between (parser.moved rest pos line) ∧
      between.children = builder.children ∧ between.buf = builder.buf ++ chars := by
  induction chars generalizing builder parser with
  | nil =>
      have atRest : parser.buf = rest := buf
      refine ⟨builder, parser.pos, parser.continuationLine, ?_, rfl, by simp⟩
      rw [parser.moved_self atRest]
      rfl
  | cons c chars ih =>
      rw [List.forall_mem_cons] at quotable
      obtain ⟨pos, step⟩ := wordLoop_backslash self (fuel + chars.length) builder buf quotable.1.1 quotable.1.2
      obtain ⟨between, endPos, line, reached, children, chars_⟩ := ih quotable.2
        ((builder.startAt parser.pos).appendChar c)
        (parser.moved ((chars.flatMap fun c => ['\\', c]) ++ rest) pos false) rfl
      refine ⟨between, endPos, line, step.trans reached, ?_, ?_⟩
      · rw [children]
        exact builder.startAt_children parser.pos
      · rw [chars_]
        simp [WordBuilder.appendChar]

theorem wordArrayCopy_append (generation : Nat) {first second firstCopies secondCopies : List Word}
    (firstCopied : wordArrayCopy generation first = some firstCopies)
    (secondCopied : wordArrayCopy generation second = some secondCopies) :
    wordArrayCopy generation (first ++ second) = some (firstCopies ++ secondCopies) := by
  induction first generalizing firstCopies with
  | nil =>
      cases firstCopied
      exact secondCopied
  | cons word words ih =>
      rw [wordArrayCopy, Option.bind_eq_bind, Option.bind_eq_some_iff] at firstCopied
      obtain ⟨copy, copied, rest⟩ := firstCopied
      rw [Option.bind_eq_bind, Option.bind_eq_some_iff] at rest
      obtain ⟨copies, restCopied, same⟩ := rest
      cases same
      simp [wordArrayCopy, copied, ih restCopied]

/-- The children of the builder are those of the parts, but for their positions. -/
def WordBuilder.Holds (builder : WordBuilder) (parts : List Part) : Prop :=
  ∀ generation, wordArrayCopy generation builder.children = some (parts.map Part.word)

theorem WordBuilder.Holds.push {builder : WordBuilder} {parts : List Part} (holds : builder.Holds parts)
    (start pos : Position) : ((builder.startAt start).push pos).Holds (parts ++ Part.flush builder.buf) := by
  intro generation
  obtain ⟨range, pushed⟩ := (builder.startAt start).push_children pos
  rw [pushed, startAt_children, startAt_buf, List.map_append]
  apply wordArrayCopy_append generation (holds generation)
  unfold Part.flush
  split <;> rfl

theorem WordBuilder.Holds.add {builder : WordBuilder} {parts : List Part} (holds : builder.Holds parts)
    {word : Word} {part : Part} (copied : ∀ generation, mrshWordCopy generation word = some part.word) :
    (builder.add word).Holds (parts ++ [part]) := by
  intro generation
  rw [List.map_append]
  apply wordArrayCopy_append generation (holds generation)
  simp [wordArrayCopy, copied generation]

theorem WordBuilder.copy_word (builder : WordBuilder) (generation : Nat) :
    mrshWordCopy generation builder.word = (wordArrayCopy generation builder.children).map wordOf := by
  unfold WordBuilder.word
  rcases builder.children with _ | ⟨first, _ | ⟨second, rest⟩⟩
  · rfl
  · cases copied : mrshWordCopy generation first <;> simp [wordArrayCopy, copied, wordOf]
  · simp only [mrshWordListCreate, mrshWordCopy, wordArrayCopy, Option.bind_eq_bind, Option.pure_def]
    cases mrshWordCopy generation first with
    | none => rfl
    | some first =>
        cases mrshWordCopy generation second with
        | none => rfl
        | some second => cases wordArrayCopy generation rest <;> rfl

theorem wordLoop_segments (self : Productions) {tail : Str} (stops : StopsWord tail) (segments : List Segment)
    (fuel : Nat) (builder : WordBuilder) (parser : Parser) (parts : List Part) (holds : builder.Holds parts)
    (buf : parser.buf = segmentsText segments ++ tail) (enough : (segmentsText segments).length < fuel) :
    ∃ (final : WordBuilder) (pos : Position) (line : Bool), wordLoop self '\x00' fuel builder parser =
        .done (some final.word) { parser.moved tail pos line with hasSym := false } ∧
      final.Holds (parts ++ assemble builder.buf segments) := by
  induction segments generalizing fuel builder parser parts with
  | nil =>
      obtain ⟨fuel, rfl⟩ : ∃ more, fuel = more + 1 := ⟨fuel - 1, by simp [segmentsText] at enough; omega⟩
      have atTail : parser.buf = tail := buf
      obtain ⟨final, after, ended, ⟨pos, rfl⟩, rfl⟩ := wordLoop_end self fuel builder (atTail ▸ stops)
      refine ⟨_, parser.pos, parser.continuationLine, ?_, holds.push parser.pos pos⟩
      rw [parser.moved_self atTail]
      exact ended
  | cons segment segments ih =>
      have split : segmentsText (segment :: segments) = segment.text ++ segmentsText segments := rfl
      rw [split, List.append_assoc] at buf
      rw [split, List.length_append] at enough
      cases segment with
      | single chars quotable =>
          obtain ⟨fuel, rfl⟩ : ∃ more, fuel = more + 1 := ⟨fuel - 1, by omega⟩
          obtain ⟨range, pos, line, read⟩ := singleQuotes_reads chars quotable buf
          have starts : charAt parser.buf 0 = '\'' := by rw [buf]; rfl
          have step := wordLoop_quotes self fuel builder starts (.inl ⟨rfl, rfl⟩) read
          have copied : ∀ generation, mrshWordCopy generation (.string chars true false range) =
              some (Part.single chars).word := fun _ => rfl
          obtain ⟨final, endPos, endLine, ended, finalHolds⟩ := ih fuel _
            (parser.moved (segmentsText segments ++ tail) pos line) _
            ((holds.push parser.pos parser.pos).add copied) rfl (by simp [Segment.text] at enough; omega)
          refine ⟨final, endPos, endLine, step.trans ended, ?_⟩
          simpa [WordBuilder.add, assemble] using finalHolds
      | double raw chars unescaped =>
          obtain ⟨fuel, rfl⟩ : ∃ more, fuel = more + 1 := ⟨fuel - 1, by omega⟩
          obtain ⟨range, lquotePos, rquotePos, pos, line, read⟩ := doubleQuotes_reads self unescaped buf
          have starts : charAt parser.buf 0 = '"' := by rw [buf]; rfl
          have step := wordLoop_quotes self fuel builder starts (.inr ⟨rfl, rfl⟩) read
          have copied : ∀ generation, mrshWordCopy generation
              (.list (if chars.isEmpty then [] else [.string chars false false range]) true lquotePos rquotePos) =
              some (Part.double chars).word := by
            intro generation
            cases chars <;> rfl
          obtain ⟨final, endPos, endLine, ended, finalHolds⟩ := ih fuel _
            (parser.moved (segmentsText segments ++ tail) pos line) _
            ((holds.push parser.pos parser.pos).add copied) rfl (by simp [Segment.text] at enough; omega)
          refine ⟨final, endPos, endLine, step.trans ended, ?_⟩
          simpa [WordBuilder.add, assemble] using finalHolds
      | backslash chars written quotable =>
          have double : (Segment.backslash chars written quotable).text.length = 2 * chars.length := by
            simp [Segment.text, List.length_flatMap, Nat.mul_comm]
          obtain ⟨fuel, rfl⟩ : ∃ more, fuel = more + chars.length := ⟨fuel - chars.length, by omega⟩
          obtain ⟨between, pos, line, step, children, chars_⟩ :=
            wordLoop_backslashes self chars quotable fuel builder parser buf
          have betweenHolds : between.Holds parts := by
            intro generation
            rw [children]
            exact holds generation
          obtain ⟨final, endPos, endLine, ended, finalHolds⟩ := ih fuel between
            (parser.moved (segmentsText segments ++ tail) pos line) parts betweenHolds rfl (by omega)
          refine ⟨final, endPos, endLine, step.trans ended, ?_⟩
          rw [chars_] at finalHolds
          exact finalHolds

theorem Segment.text_starts (segment : Segment) :
    ∃ c rest, segment.text = c :: rest ∧ (c = '\'' ∨ c = '"' ∨ c = '\\') := by
  cases segment with
  | single chars _ => exact ⟨_, _, rfl, .inl rfl⟩
  | double raw _ _ => exact ⟨_, _, rfl, .inr (.inl rfl)⟩
  | backslash chars written _ =>
      obtain ⟨c, chars, rfl⟩ := List.exists_cons_of_ne_nil written
      exact ⟨_, _, rfl, .inr (.inr rfl)⟩

theorem word_segments (self : Productions) {tail : Str} (stops : StopsWord tail) {segments : List Segment}
    (some_ : segments ≠ []) (ready : Ready (segmentsText segments ++ tail) parser) :
    ∃ read after, word self '\x00' parser = .done (some read) after ∧ Ready tail after ∧
      ∀ generation, mrshWordCopy generation read = some (wordOf ((assemble [] segments).map Part.word)) := by
  obtain ⟨c, rest, text, quoting⟩ : ∃ c rest, segmentsText segments ++ tail = c :: rest ∧
      (c = '\'' ∨ c = '"' ∨ c = '\\') := by
    obtain ⟨segment, segments, rfl⟩ := List.exists_cons_of_ne_nil some_
    obtain ⟨c, rest, text, quoting⟩ := segment.text_starts
    exact ⟨c, rest ++ segmentsText segments ++ tail, by simp [segmentsText, text], quoting⟩
  have starts : symbolAt (segmentsText segments ++ tail) = some .token := by
    rw [text]
    rcases quoting with rfl | rfl | rfl <;> rfl
  obtain ⟨found, at_, symbol⟩ := ready.symbol starts
  have peeked : charAt found.buf 0 = c := by rw [at_.buf, text]; rfl
  have notEnd : ¬ (isOperatorStart c || c == ')' || c == '\x00') = true := by
    rcases quoting with rfl | rfl | rfl <;> decide
  have holds : WordBuilder.empty.Holds [] := fun _ => rfl
  obtain ⟨final, pos, line, ended, finalHolds⟩ := wordLoop_segments self stops segments (found.buf.length + 1)
    .empty found [] holds at_.buf (by rw [at_.buf]; grind)
  refine ⟨final.word, { found.moved tail pos line with hasSym := false }, ?_,
    ⟨rfl, (by intro pending; cases pending), at_.noError, at_.noAlias⟩, ?_⟩
  · rw [word, Run.bind_of_done (symbol .token), if_pos (by decide),
      Run.bind_of_done (parserPeekChar_of peeked), if_neg notEnd]
    exact ended
  · intro generation
    rw [WordBuilder.copy_word, finalHolds generation]
    rfl

end Mrsh
