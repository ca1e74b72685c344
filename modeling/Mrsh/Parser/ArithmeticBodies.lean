import Mrsh.Parser.Aliases
import Mrsh.Parser.Quoting

namespace Mrsh

open Mrsh.Data

/-! # The text of an arithmetic expansion

One counter of the parser holds the parentheses that are open, also those of nested expansions. Each expansion starts it
again.
-/

/-- The text between `$((` and `))`. A nested expansion or a quoted text may have an arithmetic expansion in it, which
resets the counter. -/
inductive ArithBody where
  | nil
  | char (c : Char) (rest : ArithBody)
  /-- `<<` or `>>`. -/
  | shift (c : Char) (rest : ArithBody)
  | blanks (spaces : Str) (rest : ArithBody)
  | escaped (c : Char) (rest : ArithBody)
  | paren (inner rest : ArithBody)
  | arith (inner rest : ArithBody)
  | nested (text : Str) (resets : Bool) (rest : ArithBody)

namespace ArithBody

def text : ArithBody → Str
  | nil => []
  | char c rest => c :: rest.text
  | shift c rest => c :: c :: rest.text
  | blanks spaces rest => spaces ++ rest.text
  | escaped c rest => '\\' :: c :: rest.text
  | paren inner rest => '(' :: (inner.text ++ ')' :: rest.text)
  | arith inner rest => '$' :: '(' :: '(' :: (inner.text ++ ')' :: ')' :: rest.text)
  | nested text _ rest => text ++ rest.text

/-- How deep arithmetic expansions are nested in the text. -/
def nesting : ArithBody → Nat
  | nil => 0
  | char _ rest | shift _ rest | blanks _ rest | escaped _ rest | nested _ _ rest => rest.nesting
  | paren inner rest => max inner.nesting rest.nesting
  | arith inner rest => max (inner.nesting + 1) rest.nesting

/-- The text without the backslashes outside quotes. -/
def unescaped : ArithBody → Str
  | nil => []
  | char c rest => c :: rest.unescaped
  | shift c rest => c :: c :: rest.unescaped
  | blanks spaces rest => spaces ++ rest.unescaped
  | escaped c rest => c :: rest.unescaped
  | paren inner rest => '(' :: (inner.unescaped ++ ')' :: rest.unescaped)
  | arith inner rest => '$' :: '(' :: '(' :: (inner.unescaped ++ ')' :: ')' :: rest.unescaped)
  | nested text _ rest => text ++ rest.unescaped

/-- There is no backslash outside quotes. -/
def Verbatim : ArithBody → Prop
  | nil => True
  | char _ rest | shift _ rest | blanks _ rest | nested _ _ rest => rest.Verbatim
  | escaped _ _ => False
  | paren inner rest | arith inner rest => inner.Verbatim ∧ rest.Verbatim

/-- With `counter` open parentheses, nothing resets the counter within parentheses, no nested expression is empty, and
no `;` ends the expression. -/
def Counts : Nat → ArithBody → Prop
  | _, nil => True
  | counter, char c rest => c ≠ ';' ∧ rest.Counts counter
  | counter, shift _ rest | counter, blanks _ rest | counter, escaped _ rest => rest.Counts counter
  | counter, paren inner rest => inner.Counts (counter + 1) ∧ rest.Counts counter
  | counter, arith inner rest => counter = 0 ∧ inner ≠ nil ∧ inner.Counts 0 ∧ rest.Counts counter
  | counter, nested _ resets rest => (resets = true → counter = 0) ∧ rest.Counts counter

theorem unescaped_of_verbatim {body : ArithBody} (verbatim : body.Verbatim) : body.unescaped = body.text := by
  induction body with
  | nil => rfl
  | char c rest ih | shift c rest ih | blanks spaces rest ih | nested chars resets rest ih =>
      rw [unescaped, text, ih verbatim]
  | escaped c rest => exact verbatim.elim
  | paren inner rest innerIh ih | arith inner rest innerIh ih =>
      rw [unescaped, text, innerIh verbatim.1, ih verbatim.2]

theorem unescaped_length (body : ArithBody) :
    body.unescaped.length ≤ body.text.length ∧ (body.unescaped.length = body.text.length → body.Verbatim) := by
  induction body with
  | nil => exact ⟨Nat.le_refl _, fun _ => trivial⟩
  | char c rest ih | shift c rest ih | blanks spaces rest ih | nested chars resets rest ih =>
      simp only [unescaped, text, Verbatim, List.length_cons, List.length_append]
      exact ⟨by omega, fun same => ih.2 (by omega)⟩
  | escaped c rest ih =>
      simp only [unescaped, text, List.length_cons]
      exact ⟨by omega, fun same => by omega⟩
  | paren inner rest innerIh ih | arith inner rest innerIh ih =>
      simp only [unescaped, text, Verbatim, List.length_cons, List.length_append]
      exact ⟨by omega, fun same => ⟨innerIh.2 (by omega), ih.2 (by omega)⟩⟩

theorem unescaped_eq_iff (body : ArithBody) : body.unescaped = body.text ↔ body.Verbatim :=
  ⟨fun same => body.unescaped_length.2 (congrArg _ same), unescaped_of_verbatim⟩

end ArithBody

/-! ## What a word spells -/

mutual

/-- The text of a word, given that of the expansions and quotes in it. -/
def Word.spelled (spell : Word → Str) : Word → Str
  | .string str false _ _ => str
  | .arithmetic body => '$' :: '(' :: '(' :: (body.spelled spell ++ [')', ')'])
  | .list children false _ _ => spelledWords spell children
  | word => spell word

def spelledWords (spell : Word → Str) : List Word → Str
  | [] => []
  | word :: words => word.spelled spell ++ spelledWords spell words

end

theorem spelledWords_append (spell : Word → Str) (first second : List Word) :
    spelledWords spell (first ++ second) = spelledWords spell first ++ spelledWords spell second := by
  induction first with
  | nil => rfl
  | cons word first ih => rw [List.cons_append, spelledWords, spelledWords, ih, List.append_assoc]

def WordBuilder.spelled (spell : Word → Str) (builder : WordBuilder) : Str :=
  spelledWords spell builder.children ++ builder.buf

theorem WordBuilder.spelled_startAt (spell : Word → Str) (builder : WordBuilder) (pos : Position) :
    (builder.startAt pos).spelled spell = builder.spelled spell := by
  rw [spelled, spelled, startAt_children, startAt_buf]

theorem WordBuilder.spelled_push (spell : Word → Str) (builder : WordBuilder) (pos : Position) :
    spelledWords spell (builder.push pos).children = builder.spelled spell := by
  obtain ⟨range, pushed⟩ := builder.push_children pos
  rw [pushed, spelledWords_append, spelled]
  congr 1
  split
  · rename_i empty
    rw [spelledWords, List.isEmpty_iff.mp empty]
  · rw [spelledWords, spelledWords, List.append_nil, Word.spelled]

theorem WordBuilder.spelled_word (spell : Word → Str) (builder : WordBuilder) :
    builder.word.spelled spell = spelledWords spell builder.children := by
  unfold WordBuilder.word
  split
  · rename_i child only
    rw [only, spelledWords, spelledWords, List.append_nil]
  · rw [mrshWordListCreate, Word.spelled]

/-! ## Single characters -/

/-- A character that stands for itself between `$((` and `))`. -/
def isArithChar (c : Char) : Bool :=
  !(c == '\x00' || c == '\n' || c == '$' || c == '\x60' || c == '\'' || c == '"' || c == '\\' || c == '(' || c == ')' ||
    isBlank c)

theorem isArithChar_ne {c d : Char} (plain : isArithChar c = true) (other : isArithChar d = false) : c ≠ d := by
  rintro rfl
  rw [plain] at other
  cases other

section

variable {rest : Str} {parser : Parser} (self : Productions) (fuel : Nat) (builder : WordBuilder)

theorem atArithmeticEnd_of {c : Char} (buf : parser.buf = c :: rest) (other : c ≠ ')') :
    atArithmeticEnd parser = .done false parser := by
  have different : (charAt parser.buf 0 == ')') = false := by
    rw [buf]
    simpa [charAt] using other
  simp [atArithmeticEnd, different]

theorem readArithmeticChar_plain {c : Char} {next : WordBuilder → Parse (Option Word)} (buf : parser.buf = c :: rest)
    (plain : isArithChar c = true) :
    readArithmeticChar builder c next parser =
      next (builder.appendChar c) (parser.moved rest (parser.pos.advance c) false) := by
  have open_ : ¬ (c == '(') = true := by simpa using isArithChar_ne plain (show isArithChar '(' = false from rfl)
  have close : ¬ (c == ')') = true := by simpa using isArithChar_ne plain (show isArithChar ')' = false from rfl)
  have counted : countParen c parser = .done false parser := by
    rw [countParen, if_neg open_, if_neg close]
    rfl
  rw [readArithmeticChar, Run.bind_of_done counted, if_neg (by decide),
    Run.bind_of_done (parserReadChar_cons buf (isArithChar_ne plain (by decide)))]

/-- The loop at a character that neither ends the word nor starts a nested one. -/
theorem arithmeticWordLoop_at {c : Char} (buf : parser.buf = c :: rest) (plain : isArithChar c = true)
    (noEnd : c ≠ ';') :
    arithmeticWordLoop self (fuel + 1) builder parser =
      if ((c == '<' && charAt rest 0 == '<') || (c == '>' && charAt rest 0 == '>')) = true then
        (do
          let _ ← parserReadChar
          readArithmeticChar ((builder.startAt parser.pos).appendChar c) c (arithmeticWordLoop self fuel)) parser
      else readArithmeticChar (builder.startAt parser.pos) c (arithmeticWordLoop self fuel) parser := by
  have ne : ∀ d, isArithChar d = false → ¬ (c == d) = true := fun d other => by simpa using isArithChar_ne plain other
  have notBlank : isBlank c = false := by
    simp only [isArithChar, Bool.not_eq_true', Bool.or_eq_false_iff] at plain
    exact plain.2
  have peeked : charAt parser.buf 0 = c := by rw [buf]; rfl
  have next : charAt parser.buf 1 = charAt rest 0 := by rw [buf]; rfl
  have goesOn : ¬ (c == '\x00' || c == '\n' || c == ';' || isBlank c || false) = true := by
    simp [ne '\x00' (by decide), ne '\n' (by decide), noEnd, notBlank]
  rw [arithmeticWordLoop, getPos, Run.gets_bind,
    Run.bind_of_done (parserPeekChar_of peeked), Run.bind_of_done (parserPeekAt_of 1 next),
    Run.bind_of_done (atArithmeticEnd_of buf (isArithChar_ne plain (by decide))), if_neg goesOn,
    if_neg (ne _ (by decide)), if_neg (ne _ (by decide)), if_neg (ne _ (by decide)), if_neg (ne _ (by decide)),
    if_neg (ne _ (by decide)), Run.ite_apply]

theorem arithmeticWordLoop_char {c : Char} (buf : parser.buf = c :: rest) (plain : isArithChar c = true)
    (noEnd : c ≠ ';')
    (single : c = '<' ∨ c = '>' → charAt rest 0 ≠ c) :
    arithmeticWordLoop self (fuel + 1) builder parser =
      arithmeticWordLoop self fuel ((builder.startAt parser.pos).appendChar c)
        (parser.moved rest (parser.pos.advance c) false) := by
  have noShift : ¬ ((c == '<' && charAt rest 0 == '<') || (c == '>' && charAt rest 0 == '>')) = true := by
    simp only [Bool.or_eq_true, Bool.and_eq_true, beq_iff_eq]
    rintro (⟨rfl, again⟩ | ⟨rfl, again⟩)
    · exact single (.inl rfl) again
    · exact single (.inr rfl) again
  rw [arithmeticWordLoop_at self fuel builder buf plain noEnd, if_neg noShift, readArithmeticChar_plain _ buf plain]

theorem arithmeticWordLoop_shift {c : Char} (buf : parser.buf = c :: c :: rest) (isShift : c = '<' ∨ c = '>') :
    arithmeticWordLoop self (fuel + 1) builder parser =
      arithmeticWordLoop self fuel (((builder.startAt parser.pos).appendChar c).appendChar c)
        (parser.moved rest ((parser.pos.advance c).advance c) false) := by
  have facts : isArithChar c = true ∧ c ≠ ';' ∧
      ((c == '<' && charAt (c :: rest) 0 == '<') || (c == '>' && charAt (c :: rest) 0 == '>')) = true := by
    rcases isShift with rfl | rfl <;> exact ⟨rfl, by decide, rfl⟩
  obtain ⟨plain, noEnd, shifts⟩ := facts
  have visible : c ≠ '\x00' := isArithChar_ne plain (by decide)
  rw [arithmeticWordLoop_at self fuel builder buf plain noEnd, if_pos shifts,
    Run.bind_of_done (parserReadChar_cons buf visible), readArithmeticChar_plain _ rfl plain]
  rfl

theorem arithmeticWordLoop_paren {c : Char} (buf : parser.buf = c :: rest) (isParen : c = '(' ∨ c = ')')
    (noEnd : atArithmeticEnd parser = .done false parser) :
    arithmeticWordLoop self (fuel + 1) builder parser =
      readArithmeticChar (builder.startAt parser.pos) c (arithmeticWordLoop self fuel) parser := by
  have peeked : charAt parser.buf 0 = c := by rw [buf]; rfl
  have next : charAt parser.buf 1 = charAt rest 0 := by rw [buf]; rfl
  rw [arithmeticWordLoop, getPos, Run.gets_bind,
    Run.bind_of_done (parserPeekChar_of peeked), Run.bind_of_done (parserPeekAt_of 1 next), Run.bind_of_done noEnd]
  rcases isParen with rfl | rfl
  · rw [if_neg (by decide), if_neg (by decide), if_neg (by decide), if_neg (by decide), if_neg (by decide),
      if_neg (by decide), if_neg (by simp)]
  · rw [if_neg (by decide), if_neg (by decide), if_neg (by decide), if_neg (by decide), if_neg (by decide),
      if_neg (by decide), if_neg (by simp)]

theorem arithmeticWordLoop_open (buf : parser.buf = '(' :: rest) :
    arithmeticWordLoop self (fuel + 1) builder parser =
      arithmeticWordLoop self fuel ((builder.startAt parser.pos).appendChar '(')
        { parser.moved rest (parser.pos.advance '(') false with
          arithNestedParens := parser.arithNestedParens + 1 } := by
  have counted : countParen '(' parser =
      .done false { parser with arithNestedParens := parser.arithNestedParens + 1 } := rfl
  have countedBuf : ({ parser with arithNestedParens := parser.arithNestedParens + 1 } : Parser).buf = '(' :: rest :=
    buf
  rw [arithmeticWordLoop_paren self fuel builder buf (.inl rfl) (atArithmeticEnd_of buf (by decide)),
    readArithmeticChar,
    Run.bind_of_done counted, if_neg (by decide), Run.bind_of_done (parserReadChar_cons countedBuf (by decide))]
  rfl

theorem atArithmeticEnd_nested (open_ : parser.arithNestedParens ≠ 0) :
    atArithmeticEnd parser = .done false parser := by
  have different : (parser.arithNestedParens == 0) = false := by simpa using open_
  simp [atArithmeticEnd, different]

theorem arithmeticWordLoop_close (buf : parser.buf = ')' :: rest) (open_ : parser.arithNestedParens ≠ 0) :
    arithmeticWordLoop self (fuel + 1) builder parser =
      arithmeticWordLoop self fuel ((builder.startAt parser.pos).appendChar ')')
        { parser.moved rest (parser.pos.advance ')') false with
          arithNestedParens := parser.arithNestedParens - 1 } := by
  have counted : countParen ')' parser =
      .done false { parser with arithNestedParens := parser.arithNestedParens - 1 } := by
    have different : ¬ (parser.arithNestedParens == 0) = true := by simpa using open_
    rw [countParen, if_neg (by decide), if_pos (by decide), Run.gets_bind,
      if_neg different]
    rfl
  have countedBuf : ({ parser with arithNestedParens := parser.arithNestedParens - 1 } : Parser).buf = ')' :: rest :=
    buf
  rw [arithmeticWordLoop_paren self fuel builder buf (.inr rfl) (atArithmeticEnd_nested open_), readArithmeticChar,
    Run.bind_of_done counted, if_neg (by decide), Run.bind_of_done (parserReadChar_cons countedBuf (by decide))]
  rfl

/-- The production that reads an expansion or a quoted text with the given first character. -/
def nestedProduction (c : Char) : Parse (Option Word) :=
  if c == '$' then expectDollar self
  else if c == '\x60' then backQuotes self
  else if c == '\'' then singleQuotes
  else doubleQuotes self

theorem arithmeticWordLoop_starts {c : Char} (buf : parser.buf = c :: rest) (starts : c ∈ ['$', '\x60', '\'', '"']) :
    arithmeticWordLoop self (fuel + 1) builder parser =
      nestedWord (builder.startAt parser.pos) (nestedProduction self c) (arithmeticWordLoop self fuel) parser := by
  have peeked : charAt parser.buf 0 = c := by rw [buf]; rfl
  have next : charAt parser.buf 1 = charAt rest 0 := by rw [buf]; rfl
  have noEnd : atArithmeticEnd parser = .done false parser := by
    refine atArithmeticEnd_of buf ?_
    rintro rfl
    exact absurd starts (by decide)
  rw [arithmeticWordLoop, getPos, Run.gets_bind,
    Run.bind_of_done (parserPeekChar_of peeked), Run.bind_of_done (parserPeekAt_of 1 next), Run.bind_of_done noEnd]
  simp only [List.mem_cons, List.not_mem_nil, or_false] at starts
  rcases starts with rfl | rfl | rfl | rfl
  · rw [if_neg (by decide), if_pos (by decide)]
    rfl
  · rw [if_neg (by decide), if_neg (by decide), if_pos (by decide)]
    rfl
  · rw [if_neg (by decide), if_neg (by decide), if_neg (by decide), if_pos (by decide)]
    rfl
  · rw [if_neg (by decide), if_neg (by decide), if_neg (by decide), if_neg (by decide), if_pos (by decide)]
    rfl

theorem arithmeticWordLoop_nested {c : Char} (buf : parser.buf = c :: rest) (starts : c ∈ ['$', '\x60', '\'', '"'])
    {word : Word} {after : Parser} (read : nestedProduction self c parser = .done (some word) after) :
    arithmeticWordLoop self (fuel + 1) builder parser =
      arithmeticWordLoop self fuel (((builder.startAt parser.pos).push parser.pos).add word) after := by
  rw [arithmeticWordLoop_starts self fuel builder buf starts, nestedWord, getPos, Run.gets_bind, Run.bind_of_done read]

theorem arithmeticWordLoop_escaped {c : Char} (buf : parser.buf = '\\' :: c :: rest)
    (kept : c ∉ ['\x00', '\n', '(', ')']) :
    arithmeticWordLoop self (fuel + 1) builder parser =
      arithmeticWordLoop self fuel ((builder.startAt parser.pos).appendChar c)
        (parser.moved rest ((parser.pos.advance '\\').advance c) false) := by
  simp only [List.mem_cons, List.not_mem_nil, or_false, not_or] at kept
  obtain ⟨visible, newline, open_, close⟩ := kept
  have peeked : charAt parser.buf 0 = '\\' := by rw [buf]; rfl
  have next : charAt parser.buf 1 = c := by rw [buf]; rfl
  have counted : countParen c (parser.moved (c :: rest) (parser.pos.advance '\\') false) =
      .done false (parser.moved (c :: rest) (parser.pos.advance '\\') false) := by
    rw [countParen, if_neg (by simpa using open_), if_neg (by simpa using close)]
    rfl
  rw [arithmeticWordLoop, getPos, Run.gets_bind,
    Run.bind_of_done (parserPeekChar_of peeked), Run.bind_of_done (parserPeekAt_of 1 next),
    Run.bind_of_done (atArithmeticEnd_of buf (by decide)), if_neg (by decide), if_neg (by decide), if_neg (by decide),
    if_neg (by decide), if_neg (by decide), if_pos (by decide), Run.bind_of_done (parserReadChar_cons buf (by decide)),
    Run.bind_of_done (parserPeekChar_of rfl)]
  change (if (c == '\n') = true then _ else readArithmeticChar _ c _) _ = _
  rw [if_neg (by simpa using newline), readArithmeticChar, Run.bind_of_done counted, if_neg (by decide),
    Run.bind_of_done (parserReadChar_cons rfl visible)]
  rfl

theorem arithmeticWordLoop_ends (ends : charAt parser.buf 0 = ';' ∨ isBlank (charAt parser.buf 0) = true ∨
    atArithmeticEnd parser = .done true parser) :
    arithmeticWordLoop self (fuel + 1) builder parser =
      .done (some ((builder.startAt parser.pos).push parser.pos).word) { parser with hasSym := false } := by
  have finished : finishWord (builder.startAt parser.pos) parser =
      .done (some ((builder.startAt parser.pos).push parser.pos).word) { parser with hasSym := false } := rfl
  obtain ⟨atEnd, isEnd⟩ : ∃ atEnd, atArithmeticEnd parser = .done atEnd parser := ⟨_, rfl⟩
  have stops : (charAt parser.buf 0 == '\x00' || charAt parser.buf 0 == '\n' || charAt parser.buf 0 == ';' ||
      isBlank (charAt parser.buf 0) || atEnd) = true := by
    rcases ends with semicolon | blank | ended
    · simp [semicolon]
    · simp [blank]
    · rw [isEnd] at ended
      obtain ⟨rfl, -⟩ := Outcome.done.inj ended
      simp
  rw [← finished, arithmeticWordLoop, getPos, Run.gets_bind,
    Run.bind_of_done (parserPeekChar_of rfl), Run.bind_of_done (parserPeekAt_of 1 rfl), Run.bind_of_done isEnd,
    if_pos stops]

end

/-! ## Between the words -/

/-- What `word_list` does after a word. -/
def afterWord (self : Productions) (fuel : Nat) (children : List Word) : Option Word → Parse (List Word)
  | none => pure children
  | some child => do
      let begin ← getPos
      let blankFuel ← bufferFuel
      let buf ← readBlanks blankFuel []
      if buf.isEmpty then pure (children ++ [child])
      else do
        let finish ← getPos
        wordListLoop '\x00' (arithmeticWord self) fuel (children ++ [child, .string buf false false ⟨begin, finish⟩])

/-- Where the reading of a body is: within a word, or between two words. -/
inductive WordReading where
  | inWord (wordFuel : Nat) (builder : WordBuilder) (fuel : Nat) (children : List Word)
  | between (fuel : Nat) (children : List Word)

namespace WordReading

def prog (self : Productions) : WordReading → Parse (List Word)
  | .inWord wordFuel builder fuel children => do
      let child ← arithmeticWordLoop self wordFuel builder
      afterWord self fuel children child
  | .between fuel children => wordListLoop '\x00' (arithmeticWord self) fuel children

/-- What has been read. -/
def spelled (spell : Word → Str) : WordReading → Str
  | .inWord _ builder _ children => spelledWords spell children ++ builder.spelled spell
  | .between _ children => spelledWords spell children

/-- The loops go on for the text that is left. -/
def Enough (left : Nat) : WordReading → Prop
  | .inWord wordFuel _ fuel _ => left < wordFuel ∧ left ≤ fuel
  | .between fuel _ => left < fuel

/-- There is a word. -/
def HasChild : WordReading → Prop
  | .inWord .. => True
  | .between _ children => children ≠ []

end WordReading

theorem wordListLoop_succ (self : Productions) (fuel : Nat) (children : List Word) (parser : Parser)
    (visible : charAt parser.buf 0 ≠ '\x00') :
    wordListLoop '\x00' (arithmeticWord self) (fuel + 1) children parser =
      (do
        let child ← arithmeticWord self '\x00'
        afterWord self fuel children child) parser := by
  have goesOn : ¬ (charAt parser.buf 0 == '\x00') = true := by simpa using visible
  rw [wordListLoop, Run.bind_of_done (parserPeekChar_of rfl), if_neg goesOn]
  rfl

theorem readBlanks_reads (spaces : Str) (rest : Str) (parser : Parser) (acc : Str) (fuel : Nat)
    (blank : ∀ c ∈ spaces, isBlank c = true) (stops : isBlank (charAt rest 0) = false)
    (buf : parser.buf = spaces ++ rest)
    (enough : spaces.length < fuel) :
    ∃ pos line, readBlanks fuel acc parser = .done (acc ++ spaces) (parser.moved rest pos line) := by
  induction spaces generalizing parser acc fuel with
  | nil =>
      obtain ⟨fuel, rfl⟩ : ∃ more, fuel = more + 1 := ⟨fuel - 1, by simp at enough; omega⟩
      rw [List.nil_append] at buf
      refine ⟨parser.pos, parser.continuationLine, ?_⟩
      have ended : ¬ isBlank (charAt parser.buf 0) = true := by
        rw [buf, stops]
        exact Bool.false_ne_true
      rw [readBlanks, Run.bind_of_done (parserPeekChar_of rfl), if_neg ended, parser.moved_self buf, List.append_nil]
      rfl
  | cons c spaces ih =>
      obtain ⟨fuel, rfl⟩ : ∃ more, fuel = more + 1 := ⟨fuel - 1, by simp at enough; omega⟩
      rw [List.forall_mem_cons] at blank
      have peeked : charAt parser.buf 0 = c := by rw [buf]; rfl
      have read := parserReadChar_cons buf (isBlank_visible blank.1)
      obtain ⟨pos, line, more⟩ := ih (parser.moved (spaces ++ rest) (parser.pos.advance c) false) (acc ++ [c]) fuel
        blank.2 rfl (by simpa using enough)
      refine ⟨pos, line, ?_⟩
      rw [List.append_assoc] at more
      rw [readBlanks, Run.bind_of_done (parserPeekChar_of peeked), if_pos blank.1, Run.bind_of_done read]
      exact more

/-- The parser is in an expression, with the given text ahead. -/
structure InBody (text : Str) (counter : Nat) (parser : Parser) : Prop where
  buf : parser.buf = text
  counter : parser.arithNestedParens = counter
  ready : parser.hasSym = true → parser.sym = .token

/-- The reading goes on with the text that is left, after a text that it adds. -/
def WordReading.ReadsOn (self : Productions) (spell : Word → Str) (reading : WordReading) (parser : Parser)
    (added left : Str)
    (counter : Nat) : Prop :=
  ∃ (later : WordReading) (after : Parser), reading.prog self parser = later.prog self after ∧
    InBody left counter after ∧
    later.Enough left.length ∧ later.spelled spell = reading.spelled spell ++ added ∧
    (added ≠ [] ∨ reading.HasChild → later.HasChild) ∧ (parser.error = none → after.error = none)

theorem Run.bind_congr_start {α β : Type} {first second : Parse α} {next : α → Parse β} {start between : Parser}
    (same : first start = second between) : (first >>= next) start = (second >>= next) between := by
  rw [Run.bind_apply, Run.bind_apply, same]

namespace WordReading

section

variable {self : Productions} {spell : Word → Str} {reading : WordReading} {parser : Parser} {counter : Nat}

theorem ReadsOn.trans {first second left text : Str} {newCounter : Nat}
    (reads : reading.ReadsOn self spell parser first text counter)
    (goesOn : ∀ later after, InBody text counter after → WordReading.Enough text.length later →
      ReadsOn self spell later after second left newCounter) :
    reading.ReadsOn self spell parser (first ++ second) left newCounter := by
  obtain ⟨later, between, run, inBody, enough, spelled, child, keeps⟩ := reads
  obtain ⟨last, after, goes, inAfter, enoughLast, spelledLast, childLast, keepsLast⟩ :=
    goesOn later between inBody enough
  refine ⟨last, after, run.trans goes, inAfter, enoughLast, ?_, fun has => childLast ?_,
    fun noError => keepsLast (keeps noError)⟩
  · rw [spelledLast, spelled, List.append_assoc]
  · rcases has with some | has
    · by_cases empty : second = []
      · exact .inr (child (.inl fun none => some (by rw [none, empty]; rfl)))
      · exact .inl empty
    · exact .inr (child (.inr has))

theorem ReadsOn.refl {text : Str} (inBody : InBody text counter parser) (enough : reading.Enough text.length) :
    reading.ReadsOn self spell parser [] text counter :=
  ⟨reading, parser, rfl, inBody, enough, (List.append_nil _).symm, fun has => has.resolve_left (fun some => some rfl),
    id⟩

variable {c : Char} {rest : Str}

/-- A word starts at every character that does not end the expression. -/
theorem enter (inBody : InBody (c :: rest) counter parser) (visible : c ≠ '\x00')
    (noEnd : atArithmeticEnd parser = .done false parser) (enough : reading.Enough (rest.length + 1)) :
    ∃ wordFuel builder fuel children, reading.prog self parser =
        (WordReading.inWord (wordFuel + 1) builder fuel children).prog self parser ∧
      rest.length < wordFuel ∧ rest.length < fuel ∧
      (WordReading.inWord (wordFuel + 1) builder fuel children).spelled spell = reading.spelled spell := by
  cases reading with
  | inWord wordFuel builder fuel children =>
      obtain ⟨wordEnough, listEnough⟩ := enough
      obtain ⟨wordFuel, rfl⟩ : ∃ more, wordFuel = more + 1 := ⟨wordFuel - 1, by omega⟩
      exact ⟨wordFuel, builder, fuel, children, rfl, by omega, by omega, rfl⟩
  | between fuel children =>
      change rest.length + 1 < fuel at enough
      obtain ⟨fuel, rfl⟩ : ∃ more, fuel = more + 1 := ⟨fuel - 1, by omega⟩
      have length : parser.buf.length = rest.length + 1 := by rw [inBody.buf, List.length_cons]
      have head : charAt parser.buf 0 ≠ '\x00' := by
        rw [inBody.buf]
        exact visible
      refine ⟨parser.buf.length, .empty, fuel, children, ?_, by omega, by omega, ?_⟩
      · refine (wordListLoop_succ self fuel children parser head).trans (Run.bind_congr_start ?_)
        rw [arithmeticWord, Run.bind_of_done noEnd, if_neg Bool.false_ne_true]
        rfl
      · rw [spelled, spelled, WordBuilder.spelled, WordBuilder.empty, spelledWords, List.append_nil, List.append_nil]

theorem step {added left : Str} {after : Parser} {newCounter : Nat} (inBody : InBody (c :: rest) counter parser)
    (visible : c ≠ '\x00') (noEnd : atArithmeticEnd parser = .done false parser)
    (enough : reading.Enough (rest.length + 1))
    (shorter : left.length ≤ rest.length)
    (steps : ∀ wordFuel builder, ∃ later, arithmeticWordLoop self (wordFuel + 1) builder parser =
      arithmeticWordLoop self wordFuel later after ∧ later.spelled spell = builder.spelled spell ++ added)
    (inAfter : InBody left newCounter after) (keeps : parser.error = none → after.error = none) :
    reading.ReadsOn self spell parser added left newCounter := by
  obtain ⟨wordFuel, builder, fuel, children, entered, wordEnough, listEnough, same⟩ :=
    @enter self spell reading parser counter c rest inBody visible noEnd enough
  obtain ⟨later, looped, spelledLater⟩ := steps wordFuel builder
  refine ⟨.inWord wordFuel later fuel children, after, ?_, inAfter, ⟨by omega, by omega⟩, ?_, fun _ => trivial, keeps⟩
  · rw [entered]
    exact Run.bind_congr_start looped
  · rw [← same, WordReading.spelled, WordReading.spelled, spelledLater, List.append_assoc]

theorem spelled_appendChar (spell : Word → Str) (builder : WordBuilder) (c : Char) :
    (builder.appendChar c).spelled spell = builder.spelled spell ++ [c] := by
  rw [WordBuilder.spelled, WordBuilder.spelled, WordBuilder.appendChar, List.append_assoc]

theorem reads_char (inBody : InBody (c :: rest) counter parser) (enough : reading.Enough (rest.length + 1))
    (plain : isArithChar c = true) (noEnd : c ≠ ';') (single : c = '<' ∨ c = '>' → charAt rest 0 ≠ c) :
    reading.ReadsOn self spell parser [c] rest counter := by
  refine step inBody (isArithChar_ne plain rfl) (atArithmeticEnd_of inBody.buf (isArithChar_ne plain rfl)) enough
    (Nat.le_refl _)
    (fun wordFuel builder => ⟨_, arithmeticWordLoop_char self wordFuel builder inBody.buf plain noEnd single, ?_⟩)
    ⟨rfl, inBody.counter, inBody.ready⟩ id
  rw [spelled_appendChar, WordBuilder.spelled_startAt]

theorem reads_shift (inBody : InBody (c :: c :: rest) counter parser) (enough : reading.Enough (rest.length + 2))
    (isShift : c = '<' ∨ c = '>') : reading.ReadsOn self spell parser [c, c] rest counter := by
  have plain : isArithChar c = true := by rcases isShift with rfl | rfl <;> rfl
  refine step inBody (isArithChar_ne plain rfl) (atArithmeticEnd_of inBody.buf (isArithChar_ne plain rfl)) enough
    (Nat.le_succ _) (fun wordFuel builder => ⟨_, arithmeticWordLoop_shift self wordFuel builder inBody.buf isShift, ?_⟩)
    ⟨rfl, inBody.counter, inBody.ready⟩ id
  rw [spelled_appendChar, spelled_appendChar, WordBuilder.spelled_startAt, List.append_assoc]
  rfl

theorem reads_open (inBody : InBody ('(' :: rest) counter parser) (enough : reading.Enough (rest.length + 1)) :
    reading.ReadsOn self spell parser ['('] rest (counter + 1) := by
  refine step inBody (by decide) (atArithmeticEnd_of inBody.buf (by decide)) enough (Nat.le_refl _)
    (fun wordFuel builder => ⟨_, arithmeticWordLoop_open self wordFuel builder inBody.buf, ?_⟩)
    ⟨rfl, congrArg (· + 1) inBody.counter, inBody.ready⟩ id
  rw [spelled_appendChar, WordBuilder.spelled_startAt]

theorem reads_close (inBody : InBody (')' :: rest) (counter + 1) parser) (enough : reading.Enough (rest.length + 1)) :
    reading.ReadsOn self spell parser [')'] rest counter := by
  have open_ : parser.arithNestedParens ≠ 0 := by
    rw [inBody.counter]
    omega
  have less : parser.arithNestedParens - 1 = counter := by
    rw [inBody.counter]
    omega
  refine step inBody (by decide) (atArithmeticEnd_nested open_) enough (Nat.le_refl _)
    (fun wordFuel builder => ⟨_, arithmeticWordLoop_close self wordFuel builder inBody.buf open_, ?_⟩)
    ⟨rfl, less, inBody.ready⟩ id
  rw [spelled_appendChar, WordBuilder.spelled_startAt]

theorem reads_escaped (inBody : InBody ('\\' :: c :: rest) counter parser) (enough : reading.Enough (rest.length + 2))
    (kept : c ∉ ['\x00', '\n', '(', ')']) : reading.ReadsOn self spell parser [c] rest counter := by
  refine step inBody (by decide) (atArithmeticEnd_of inBody.buf (by decide)) enough (Nat.le_succ _)
    (fun wordFuel builder => ⟨_, arithmeticWordLoop_escaped self wordFuel builder inBody.buf kept, ?_⟩)
    ⟨rfl, inBody.counter, inBody.ready⟩ id
  rw [spelled_appendChar, WordBuilder.spelled_startAt]

theorem reads_nested {left : Str} {newCounter : Nat} {word : Word} {after : Parser}
    (inBody : InBody (c :: rest) counter parser) (enough : reading.Enough (rest.length + 1))
    (starts : c ∈ ['$', '\x60', '\'', '"']) (shorter : left.length ≤ rest.length)
    (read : nestedProduction self c parser = .done (some word) after) (inAfter : InBody left newCounter after)
    (keeps : parser.error = none → after.error = none) :
    reading.ReadsOn self spell parser (word.spelled spell) left newCounter := by
  have visible : c ≠ '\x00' ∧ c ≠ ')' := by
    simp only [List.mem_cons, List.not_mem_nil, or_false] at starts
    rcases starts with rfl | rfl | rfl | rfl <;> decide
  refine step inBody visible.1 (atArithmeticEnd_of inBody.buf visible.2) enough shorter
    (fun wordFuel builder => ⟨_, arithmeticWordLoop_nested self wordFuel builder inBody.buf starts read,
      ?_⟩) inAfter keeps
  rw [WordBuilder.spelled, WordBuilder.add, WordBuilder.push_buf, List.append_nil, spelledWords_append,
    WordBuilder.spelled_push, WordBuilder.spelled_startAt, spelledWords, spelledWords, List.append_nil]

theorem reads_blanks {spaces : Str} (inBody : InBody (spaces ++ rest) counter parser)
    (enough : reading.Enough (spaces ++ rest).length) (some : spaces ≠ []) (blank : ∀ c ∈ spaces, isBlank c = true)
    (stops : isBlank (charAt rest 0) = false) : reading.ReadsOn self spell parser spaces rest counter := by
  obtain ⟨c, spaces, rfl⟩ := List.exists_cons_of_ne_nil some
  have first := (List.forall_mem_cons.mp blank).1
  have notParen : c ≠ ')' := by
    rintro rfl
    cases first
  have head : isBlank (charAt parser.buf 0) = true := by
    rw [inBody.buf]
    exact first
  obtain ⟨wordFuel, builder, fuel, children, entered, wordEnough, listEnough, same⟩ :=
    @enter self spell reading parser counter c (spaces ++ rest) inBody (isBlank_visible first)
      (atArithmeticEnd_of inBody.buf notParen) enough
  obtain ⟨pos, line, skipped⟩ := readBlanks_reads (c :: spaces) rest { parser with hasSym := false } []
    (parser.buf.length + 1) blank stops inBody.buf
      (by rw [inBody.buf]; simp only [List.cons_append, List.length_cons, List.length_append]; omega)
  refine ⟨.between fuel (children ++ [((builder.startAt parser.pos).push parser.pos).word,
    .string (c :: spaces) false false ⟨parser.pos, pos⟩]), ({ parser with hasSym :=
      false } : Parser).moved rest pos line,
    ?_, ⟨rfl, inBody.counter, fun pending => ?_⟩, ?_, ?_, ?_, id⟩
  · rw [entered, prog, Run.bind_of_done (arithmeticWordLoop_ends self wordFuel builder (.inr (.inl head))), afterWord,
      getPos, Run.gets_bind, bufferFuel, Run.gets_bind, Run.bind_of_done skipped]
    rfl
  · cases pending
  · rw [List.length_append] at listEnough
    exact Nat.lt_of_le_of_lt (Nat.le_add_left _ _) listEnough
  · rw [← same, spelled, spelled, spelledWords_append, spelledWords, spelledWords, spelledWords, Word.spelled,
      WordBuilder.spelled_word, WordBuilder.spelled_push, WordBuilder.spelled_startAt,
        List.append_nil, List.append_assoc]
  · intro _
    simp [HasChild]

end

end WordReading

/-! ## The closing parentheses -/

/-- The text in which a token is looked for. -/
def Parser.ahead (parser : Parser) : Str := if parser.hasSym then parser.buf else parser.buf.dropWhile isBlank

/-- The symbol that has been found is not `)`. -/
structure Blocked (parser : Parser) : Prop where
  hasSym : parser.hasSym = true
  other : parser.sym = .token → charAt parser.buf 0 ≠ ')'

section

variable {parser : Parser}

theorem symbol_ahead (ready : parser.hasSym = true → parser.sym = .token) :
    ∃ isToken found, symbol .token parser = .done isToken found ∧ found.hasSym = true ∧
      if symbolAt parser.ahead = some .token ∨ parser.hasSym = true then isToken = true ∧ found.buf = parser.ahead
      else isToken = false ∧ found.sym ≠ .token := by
  cases pending : parser.hasSym with
  | true =>
      refine ⟨true, parser, ?_, pending, ?_⟩
      · simp [symbol, getSymbol, pending, ready pending]
      · simp [Parser.ahead, pending]
  | false =>
      obtain ⟨found, finds, hasSym, isToken⟩ :=
        nextSymbolWithin_token (parser.buf.length + 1) parser (Nat.lt_succ_self _)
      refine ⟨found.sym == .token, found, ?_, hasSym, ?_⟩
      · simp [symbol, getSymbol, pending, nextSymbol, bufferFuel, finds]
      · simp only [Parser.ahead, pending, Bool.false_eq_true, if_false, or_false]
        split at isToken
        · rename_i starts
          rw [if_pos starts]
          exact ⟨by rw [isToken.1]; rfl, isToken.2⟩
        · rename_i starts
          rw [if_neg starts]
          exact ⟨by simpa using isToken, isToken⟩

theorem parserSetError_leaves (parser : Parser) (msg : Str) :
    ∃ error hereDocuments, parserSetError msg parser = .done () { parser with error, hereDocuments } := by
  cases failed : parser.error with
  | none =>
      refine ⟨some (msg, parser.pos), [], ?_⟩
      simp only [parserSetError, Run.modify_apply, failed]
  | some error =>
      refine ⟨some error, parser.hereDocuments, ?_⟩
      simp only [parserSetError, Run.modify_apply, failed]
      rw [← failed]

theorem expectToken_of_token {str : Str} {between : Parser} (declined : token str parser = .done none between)
    (blocked : Blocked between) : ∃ after, expectToken str parser = .done none after ∧ Blocked after := by
  obtain ⟨error, hereDocuments, failed⟩ := parserSetError_leaves between ("expected '".toList ++ str ++ ['\''])
  refine ⟨{ between with error, hereDocuments }, ?_, blocked.hasSym, blocked.other⟩
  rw [expectToken, Run.bind_of_done declined]
  exact Run.bind_of_done failed

theorem expectToken_blocked (blocked : Blocked parser) :
    ∃ after, expectToken [')'] parser = .done none after ∧ Blocked after := by
  refine expectToken_of_token ?_ blocked
  have current : symbol .token parser = .done (parser.sym == .token) parser := by
    simp [symbol, getSymbol, blocked.hasSym]
  rw [token, Run.bind_of_done current]
  by_cases isToken : parser.sym = .token
  · have other : ¬ (charAt parser.buf 0 == ')') = true := by simpa using blocked.other isToken
    rw [if_pos (by simpa using isToken), getPos, Run.gets_bind]
    simp only [show (')' : Char).isAlpha = false from rfl, Bool.false_eq_true, if_false]
    rw [Run.bind_of_done (parserPeekChar_of rfl), if_neg other]
    rfl
  · rw [if_neg (by simpa using isToken)]
    rfl

theorem expectToken_other (ready : parser.hasSym = true → parser.sym = .token) (other : charAt parser.ahead 0 ≠ ')') :
    ∃ after, expectToken [')'] parser = .done none after ∧ Blocked after := by
  obtain ⟨isToken, found, current, hasSym, where_⟩ := symbol_ahead ready
  have same : token [')'] parser = .done none found ∧ Blocked found := by
    rw [token, Run.bind_of_done current]
    split at where_
    · obtain ⟨rfl, buf⟩ := where_
      have next : ¬ (charAt found.buf 0 == ')') = true := by
        rw [buf]
        simpa using other
      refine ⟨?_, hasSym, fun _ => by simpa using next⟩
      rw [if_pos rfl, getPos, Run.gets_bind]
      simp only [show (')' : Char).isAlpha = false from rfl, Bool.false_eq_true, if_false]
      rw [Run.bind_of_done (parserPeekChar_of rfl), if_neg next]
      rfl
    · obtain ⟨rfl, notToken⟩ := where_
      exact ⟨rfl, hasSym, fun isToken => absurd isToken notToken⟩
  exact expectToken_of_token same.1 same.2

theorem symbolAt_close (left : Str) : symbolAt (')' :: left) = some .token := rfl

theorem expectToken_close {left : Str} (ready : parser.hasSym = true → parser.sym = .token)
    (ahead : parser.ahead = ')' :: left) :
    ∃ range pos line, expectToken [')'] parser =
      .done (some range) { parser.moved left pos line with hasSym := false, sym := .token } := by
  have current : ∃ pos line, symbol .token parser =
      .done true { parser.moved (')' :: left) pos line with hasSym := true, sym := .token } := by
    cases pending : parser.hasSym with
    | true =>
        have buf : parser.buf = ')' :: left := by
          rw [← ahead, Parser.ahead, if_pos pending]
        refine ⟨parser.pos, parser.continuationLine, ?_⟩
        have same :
          { parser.moved (')' :: left) parser.pos parser.continuationLine with hasSym := true, sym := .token } =
            parser := by
          rw [parser.moved_self buf, ← pending, ← ready pending]
        rw [same]
        simp [symbol, getSymbol, pending, ready pending]
    | false =>
        have buf : parser.buf = parser.buf.takeWhile isBlank ++ ')' :: left := by
          rw [← ahead, Parser.ahead, if_neg (by simp [pending]), List.takeWhile_append_dropWhile]
        obtain ⟨pos, line, found⟩ := nextSymbolWithin_blanks parser (parser.buf.takeWhile isBlank)
          (List.all_eq_true.mp List.all_takeWhile) parser.buf.length buf (symbolAt_close left)
          (List.takeWhile_sublist _).length_le
        exact ⟨pos, line, by simp [symbol, getSymbol, pending, nextSymbol, bufferFuel, found]⟩
  obtain ⟨pos, line, current⟩ := current
  refine ⟨⟨pos, pos.advance ')'⟩, pos.advance ')', false, ?_⟩
  have taken : token [')'] parser = .done (some ⟨pos, pos.advance ')'⟩)
      { parser.moved left (pos.advance ')') false with hasSym := false, sym := .token } := by
    rw [token, Run.bind_of_done current, if_pos rfl, getPos, Run.gets_bind]
    simp only [show (')' : Char).isAlpha = false from rfl, Bool.false_eq_true, if_false]
    rw [Run.bind_of_done (parserPeekChar_of rfl), if_pos (by rfl),
      Run.bind_of_done (parserReadChar_cons rfl (by decide))]
    rfl
  rw [expectToken, Run.bind_of_done taken]
  rfl

end

/-! ## The end of an expression -/

/-- The word of the children, if there are any. -/
def wordOfList : List Word → Option Word
  | [] => none
  | [child] => some child
  | children => some (mrshWordListCreate children false)

theorem wordOfList_some (spell : Word → Str) {children : List Word} (nonempty : children ≠ []) :
    ∃ body, wordOfList children = some body ∧ body.spelled spell = spelledWords spell children := by
  match children, nonempty with
  | [child], _ => exact ⟨child, rfl, by rw [spelledWords, spelledWords, List.append_nil]⟩
  | _ :: _ :: _, _ => exact ⟨_, rfl, by rw [mrshWordListCreate, Word.spelled]⟩

def secondParen (body : Word) : Parse (Option Word) := do
  match ← expectToken [')'] with
  | none => pure none
  | some _ => pure (some (.arithmetic body))

/-- What `expect_word_arithmetic` does after the words. -/
def closeArithmetic (children : List Word) : Parse (Option Word) :=
  match wordOfList children with
  | none => do
      match ← mrshParserError with
      | some _ => pure none
      | none => do
          parserSetError "expected an arithmetic expression".toList
          pure none
  | some body => do
      match ← expectToken [')'] with
      | none => pure none
      | some _ => secondParen body

theorem wordList_bind {α : Type} (stop : Char) (f : Char → Parse (Option Word)) (next : Option Word → Parse α)
    (parser : Parser) : (wordList stop f >>= next) parser =
      (wordListLoop stop f (parser.buf.length + 1) [] >>= fun children => next (wordOfList children)) parser := by
  rw [wordList, bind_assoc, bufferFuel, Run.gets_bind, bind_assoc]
  refine congrArg (fun run : Parse α => run parser) (bind_congr fun children => ?_)
  rcases children with _ | ⟨first, _ | ⟨second, rest⟩⟩ <;> rfl

section

variable {parser : Parser} {rest : Str}

theorem expectWordArithmetic_opens (level : Nat) (buf : parser.buf = '(' :: '(' :: rest) :
    ∃ pos, expectWordArithmetic (productions (level + 1)) parser =
      ((WordReading.between (rest.length + 1) []).prog (productions level) >>= closeArithmetic)
        { parser.moved rest pos false with arithNestedParens := 0 } := by
  refine ⟨(parser.pos.advance '(').advance '(', ?_⟩
  rw [expectWordArithmetic, Run.bind_of_done (parserReadChar_cons buf (by decide)), assert, if_pos (by decide)]
  rw [pure_bind, Run.bind_of_done (parserReadChar_cons rfl (by decide)), assert, if_pos (by decide), pure_bind,
    Run.bind_apply, Run.modify_apply, Outcome.andThen_done]
  exact wordList_bind _ _ _ _

theorem nestedProduction_arithmetic (self : Productions) (buf : parser.buf = '$' :: '(' :: '(' :: rest) :
    nestedProduction self '$' parser =
      expectWordArithmetic self (parser.moved ('(' :: '(' :: rest) (parser.pos.advance '$') false) := by
  change expectDollar self parser = _
  rw [expectDollar, getPos, Run.gets_bind,
    Run.bind_of_done (parserReadChar_cons buf (by decide)), assert, if_pos (by decide), pure_bind,
    Run.bind_of_done (parserPeekChar_of rfl)]
  change (if ('(' == '{') = true then _ else if ('(' == '(') = true then _ else _ : Parse (Option Word)) _ = _
  rw [if_neg (by decide), if_pos (by decide), Run.bind_of_done (parserPeekAt_of 1 rfl)]
  rfl

theorem WordReading.inWord_ends (self : Productions) (wordFuel fuel : Nat) (builder : WordBuilder)
    (children : List Word)
    (ends : charAt parser.buf 0 = ';' ∨ isBlank (charAt parser.buf 0) = true ∨
      atArithmeticEnd parser = .done true parser)
    (notBlank : isBlank (charAt parser.buf 0) = false) :
    ∃ pos line, (WordReading.inWord (wordFuel + 1) builder fuel children).prog self parser =
      .done (children ++ [((builder.startAt parser.pos).push parser.pos).word])
        (({ parser with hasSym := false } : Parser).moved parser.buf pos line) := by
  obtain ⟨pos, line, none⟩ := readBlanks_reads [] parser.buf { parser with hasSym := false } [] (parser.buf.length + 1)
    (by simp) notBlank rfl (by simp)
  refine ⟨pos, line, ?_⟩
  rw [prog, Run.bind_of_done (arithmeticWordLoop_ends self wordFuel builder ends), afterWord, getPos, Run.gets_bind,
    bufferFuel, Run.gets_bind,
    Run.bind_of_done none]
  rfl

theorem WordReading.finishes (self : Productions) (spell : Word → Str) {reading : WordReading}
    (inBody : InBody (')' :: ')' :: rest) 0 parser) (enough : reading.Enough (rest.length + 2)) :
    ∃ children after, reading.prog self parser = .done children after ∧ InBody (')' :: ')' :: rest) 0 after ∧
      spelledWords spell children = reading.spelled spell ∧ (children = [] ↔ ¬ reading.HasChild) ∧
      after.error = parser.error := by
  have atEnd : atArithmeticEnd parser = .done true parser := by
    simp [atArithmeticEnd, inBody.buf, inBody.counter, charAt]
  cases reading with
  | inWord wordFuel builder fuel children =>
      obtain ⟨wordFuel, rfl⟩ : ∃ more, wordFuel = more + 1 := ⟨wordFuel - 1, by have := enough.1; omega⟩
      have notBlank : isBlank (charAt parser.buf 0) = false := by
        rw [inBody.buf]
        exact (by decide : isBlank ')' = false)
      obtain ⟨pos, line, ended⟩ := inWord_ends self wordFuel fuel builder children (.inr (.inr atEnd)) notBlank
      rw [inBody.buf] at ended
      refine ⟨children ++ [((builder.startAt parser.pos).push parser.pos).word],
        ({ parser with hasSym := false } : Parser).moved (')' :: ')' :: rest) pos line, ended,
        ⟨rfl, inBody.counter, fun pending => by cases pending⟩, ?_, by simp [HasChild], rfl⟩
      rw [spelledWords_append, spelledWords, spelledWords, WordBuilder.spelled_word, WordBuilder.spelled_push,
        WordBuilder.spelled_startAt, List.append_nil, WordReading.spelled]
  | between fuel children =>
      obtain ⟨fuel, rfl⟩ : ∃ more, fuel = more + 1 := ⟨fuel - 1, by
        have : rest.length + 2 < fuel := enough
        omega⟩
      have visible : charAt parser.buf 0 ≠ '\x00' := by
        rw [inBody.buf]
        exact (by decide : (')' : Char) ≠ '\x00')
      have ends : arithmeticWord self '\x00' parser = .done none parser := by
        rw [arithmeticWord, Run.bind_of_done atEnd]
        rfl
      refine ⟨children, parser, ?_, inBody, rfl, by simp [HasChild], rfl⟩
      rw [prog, wordListLoop_succ self fuel children parser visible, Run.bind_of_done ends]
      rfl

theorem closeArithmetic_done (spell : Word → Str) {children : List Word} (nonempty : children ≠ [])
    (inBody : InBody (')' :: ')' :: rest) 0 parser) :
    ∃ body after, closeArithmetic children parser = .done (some (.arithmetic body)) after ∧ InBody rest 0 after ∧
      body.spelled spell = spelledWords spell children ∧ after.error = parser.error := by
  obtain ⟨body, isBody, spelled⟩ := wordOfList_some spell nonempty
  have ahead : parser.ahead = ')' :: ')' :: rest := by
    rw [Parser.ahead, inBody.buf]
    split
    · rfl
    · rfl
  obtain ⟨_, pos, line, first⟩ := expectToken_close inBody.ready ahead
  obtain ⟨_, lastPos, lastLine, second⟩ := @expectToken_close
    { parser.moved (')' :: rest) pos line with hasSym := false, sym := .token } rest (fun _ => rfl) rfl
  refine ⟨body, { parser.moved rest lastPos lastLine with hasSym := false, sym := .token }, ?_,
    ⟨rfl, inBody.counter, fun _ => rfl⟩, spelled, rfl⟩
  rw [closeArithmetic, isBody]
  refine (Run.bind_of_done first).trans ?_
  exact Run.bind_of_done second

theorem expectWordArithmetic_of_reads {level : Nat} {spell : Word → Str} {text added : Str} (some : added ≠ [])
    (buf : parser.buf = '(' :: '(' :: (text ++ ')' :: ')' :: rest)) (ready : parser.hasSym = true → parser.sym = .token)
    (reads : ∀ {reading : WordReading} {between : Parser}, InBody (text ++ ')' :: ')' :: rest) 0 between →
      reading.Enough (text ++ ')' :: ')' :: rest).length →
      reading.ReadsOn (productions level) spell between added (')' :: ')' :: rest) 0) :
    ∃ body after, expectWordArithmetic (productions (level + 1)) parser = .done (.some (.arithmetic body)) after ∧
      InBody rest 0 after ∧ body.spelled spell = added ∧ (parser.error = none → after.error = none) := by
  obtain ⟨pos, opened⟩ := expectWordArithmetic_opens level buf
  obtain ⟨later, between, run, inBody, enough, spelled, child, keeps⟩ :=
    @reads (.between ((text ++ ')' :: ')' :: rest).length + 1) [])
      { parser.moved (text ++ ')' :: ')' :: rest) pos false with arithNestedParens := 0 } ⟨rfl, rfl, ready⟩
      (Nat.lt_succ_self _)
  obtain ⟨children, ended, finished, inEnd, spelledEnd, childless, sameError⟩ :=
    WordReading.finishes (productions level) spell inBody enough
  have nonempty : children ≠ [] := fun none => childless.mp none (child (.inl some))
  obtain ⟨body, after, closed, inAfter, spelledBody, lastError⟩ := closeArithmetic_done spell nonempty inEnd
  refine ⟨body, after, ?_, inAfter, ?_, fun noError => ?_⟩
  · rw [opened, Run.bind_of_done (run.trans finished), closed]
  · rw [spelledBody, spelledEnd, spelled]
    rfl
  · rw [lastError, sameError]
    exact keeps noError

theorem WordReading.reads_arith {level counter : Nat} {spell : Word → Str} {text added : Str} {reading : WordReading}
    (inBody : InBody ('$' :: '(' :: '(' :: (text ++ ')' :: ')' :: rest)) counter parser)
    (enough : reading.Enough ((text ++ ')' :: ')' :: rest).length + 3)) (some : added ≠ [])
    (reads : ∀ {reading : WordReading} {between : Parser}, InBody (text ++ ')' :: ')' :: rest) 0 between →
      reading.Enough (text ++ ')' :: ')' :: rest).length →
      reading.ReadsOn (productions level) spell between added (')' :: ')' :: rest) 0) :
    reading.ReadsOn (productions (level + 1)) spell parser ('$' :: '(' :: '(' :: (added ++ [')', ')'])) rest 0 := by
  have opened : (parser.moved ('(' :: '(' :: (text ++ ')' :: ')' :: rest)) (parser.pos.advance '$') false).buf = _ :=
    rfl
  obtain ⟨body, after, read, inAfter, spelled, keeps⟩ := expectWordArithmetic_of_reads some opened inBody.ready reads
  have whole : '$' :: '(' :: '(' :: (added ++ [')', ')']) = (Word.arithmetic body).spelled spell := by
    rw [Word.spelled, spelled]
  rw [whole]
  refine WordReading.reads_nested inBody enough (by decide) ?_
    ((nestedProduction_arithmetic _ inBody.buf).trans read) inAfter
    keeps
  simp only [List.length_cons, List.length_append]
  omega

end

/-! ## The text of a body -/

/-- An expansion or a quoted text that the parser reads to its end. -/
def IsNested (spell : Word → Str) (least : Nat) (text : Str) (resets : Bool) (following : Str) : Prop :=
  ∃ c more, text = c :: more ∧ c ∈ ['$', '\x60', '\'', '"'] ∧
    ∀ level parser counter, least ≤ level → InBody (text ++ following) counter parser →
      ∃ word after, nestedProduction (productions level) c parser = .done (some word) after ∧
        InBody following (if resets then 0 else counter) after ∧ word.spelled spell = text ∧
        (parser.error = none → after.error = none)

theorem IsNested.reads {spell : Word → Str} {least level counter : Nat} {chars following : Str} {resets : Bool}
    {reading : WordReading} {parser : Parser} (isNested : IsNested spell least chars resets following)
    (deep : least ≤ level)
    (inBody : InBody (chars ++ following) counter parser) (enough : reading.Enough (chars ++ following).length) :
    reading.ReadsOn (productions level) spell parser chars following (if resets then 0 else counter) := by
  obtain ⟨c, more, rfl, starts, read⟩ := isNested
  obtain ⟨word, after, read, inAfter, spelled, keeps⟩ := read level parser counter deep inBody
  have first := @WordReading.reads_nested _ spell _ _ _ _ _ _ _ _ _ inBody enough starts (by simp) read inAfter keeps
  rw [spelled] at first
  exact first

namespace ArithBody

/-- The characters, the blanks and the shifts of the text are told apart by what follows them. -/
def WellFormed (spell : Word → Str) (least : Nat) : ArithBody → Str → Prop
  | nil, _ => True
  | char c rest, following =>
      isArithChar c = true ∧ (c = '<' ∨ c = '>' → charAt (rest.text ++ following) 0 ≠ c) ∧
        rest.WellFormed spell least following
  | shift c rest, following => (c = '<' ∨ c = '>') ∧ rest.WellFormed spell least following
  | blanks spaces rest, following =>
      spaces ≠ [] ∧ (∀ c ∈ spaces, isBlank c = true) ∧ isBlank (charAt (rest.text ++ following) 0) = false ∧
        rest.WellFormed spell least following
  | escaped c rest, following => c ∉ ['\x00', '\n', '(', ')'] ∧ rest.WellFormed spell least following
  | paren inner rest, following =>
      inner.WellFormed spell least (')' :: (rest.text ++ following)) ∧ rest.WellFormed spell least following
  | arith inner rest, following =>
      inner.WellFormed spell least (')' :: ')' :: (rest.text ++ following)) ∧ rest.WellFormed spell least following
  | nested text resets rest, following =>
      IsNested spell least text resets (rest.text ++ following) ∧ rest.WellFormed spell least following

variable {spell : Word → Str} {least : Nat}

theorem unescaped_ne_nil {body : ArithBody} {following : Str} (wellFormed : body.WellFormed spell least following)
    (some : body ≠ nil) : body.unescaped ≠ [] := by
  cases body with
  | nil => exact absurd rfl some
  | blanks spaces rest =>
      obtain ⟨nonempty, _⟩ := wellFormed
      intro empty
      exact nonempty (List.append_eq_nil_iff.mp empty).1
  | nested text resets rest =>
      obtain ⟨⟨c, more, rfl, _⟩, _⟩ := wellFormed
      exact List.cons_ne_nil _ _
  | char | shift | escaped | paren | arith => exact List.cons_ne_nil _ _

/-- A body whose parentheses are counted is read to its end, without its backslashes. -/
theorem reads (body : ArithBody) {following : Str} {level counter : Nat} {parser : Parser} {reading : WordReading}
    (wellFormed : body.WellFormed spell least following) (counts : body.Counts counter)
    (deep : least + body.nesting ≤ level) (inBody : InBody (body.text ++ following) counter parser)
    (enough : reading.Enough (body.text ++ following).length) :
    reading.ReadsOn (productions level) spell parser body.unescaped following counter := by
  induction body generalizing following level counter parser reading with
  | nil => exact .refl inBody enough
  | char c rest ih =>
      obtain ⟨plain, single, wellFormed⟩ := wellFormed
      exact (WordReading.reads_char inBody enough plain counts.1 single).trans fun _ _ inBody enough =>
        ih wellFormed counts.2 deep inBody enough
  | shift c rest ih =>
      obtain ⟨isShift, wellFormed⟩ := wellFormed
      exact (WordReading.reads_shift inBody enough isShift).trans fun _ _ inBody enough =>
        ih wellFormed counts deep inBody enough
  | blanks spaces rest ih =>
      obtain ⟨some, blank, stops, wellFormed⟩ := wellFormed
      rw [text, List.append_assoc] at inBody enough
      exact (WordReading.reads_blanks inBody enough some blank stops).trans fun _ _ inBody enough =>
        ih wellFormed counts deep inBody enough
  | escaped c rest ih =>
      obtain ⟨kept, wellFormed⟩ := wellFormed
      exact (WordReading.reads_escaped inBody enough kept).trans fun _ _ inBody enough =>
        ih wellFormed counts deep inBody enough
  | paren inner rest innerIh ih =>
      obtain ⟨wellFormedInner, wellFormed⟩ := wellFormed
      have deep : least + inner.nesting ≤ level ∧ least + rest.nesting ≤ level := by
        rw [nesting] at deep
        omega
      have whole : (paren inner rest).text ++ following = '(' :: (inner.text ++ ')' :: (rest.text ++ following)) := by
        simp [text]
      rw [whole] at inBody enough
      have closed : (paren inner rest).unescaped = ['('] ++ (inner.unescaped ++ ([')'] ++ rest.unescaped)) := by
        simp [unescaped]
      rw [closed]
      refine (WordReading.reads_open inBody enough).trans fun _ _ inBody enough => ?_
      refine (innerIh wellFormedInner counts.1 deep.1 inBody enough).trans fun _ _ inBody enough => ?_
      refine (WordReading.reads_close inBody enough).trans fun _ _ inBody enough => ?_
      exact ih wellFormed counts.2 deep.2 inBody enough
  | arith inner rest innerIh ih =>
      obtain ⟨wellFormedInner, wellFormed⟩ := wellFormed
      obtain ⟨rfl, some, countsInner, counts⟩ := counts
      rw [nesting] at deep
      obtain ⟨level, rfl⟩ : ∃ less, level = less + 1 := ⟨level - 1, by omega⟩
      have deepInner : least + inner.nesting ≤ level := by omega
      have deepRest : least + rest.nesting ≤ level + 1 := by omega
      have whole : (arith inner rest).text ++ following =
          '$' :: '(' :: '(' :: (inner.text ++ ')' :: ')' :: (rest.text ++ following)) := by
        simp [text]
      rw [whole] at inBody enough
      have closed : (arith inner rest).unescaped =
          '$' :: '(' :: '(' :: (inner.unescaped ++ [')', ')']) ++ rest.unescaped := by
        simp [unescaped]
      rw [closed]
      refine (WordReading.reads_arith inBody enough (unescaped_ne_nil wellFormedInner some) ?_).trans
        fun _ _ inBody enough =>
        ih wellFormed counts deepRest inBody enough
      exact fun inBody enough => innerIh wellFormedInner countsInner deepInner inBody enough
  | nested chars resets rest ih =>
      obtain ⟨isNested, wellFormed⟩ := wellFormed
      rw [text, List.append_assoc] at inBody enough
      have same : (if resets then 0 else counter) = counter := by
        cases resets with
        | false => rfl
        | true => exact (counts.1 rfl).symm
      have first := isNested.reads (Nat.le_of_add_right_le deep) inBody enough
      rw [same] at first
      exact first.trans fun _ _ inBody enough => ih wellFormed counts.2 deep inBody enough

end ArithBody

end Mrsh
