import Mrsh.Parser.Symbols

namespace Mrsh

open Mrsh.Data

/-! # Lines and their symbols

Which symbol is found in a line, and what can be said of a parser that has read
symbols of an unknown text.
-/

theorem symbolAt_char {text : Str} {sym : SymbolName} (starts : symbolAt text = some sym) :
    (sym = .eofToken → charAt text 0 = '\x00') ∧ (sym = .newline → charAt text 0 = '\n') := by
  unfold symbolAt at starts
  by_cases ends : charAt text 0 = '\x00'
  · simp only [ends, beq_self_eq_true, if_true, Option.some.injEq] at starts
    subst starts
    exact ⟨fun _ => ends, fun impossible => by cases impossible⟩
  · by_cases newline : charAt text 0 = '\n'
    · simp only [newline, beq_self_eq_true, if_true] at starts
      cases starts
      exact ⟨fun impossible => (by cases impossible), fun _ => newline⟩
    · simp only [beq_iff_eq, ends, newline, if_false] at starts
      cases operator : (if isOperatorStart (charAt text 0) then operatorAt text else none) with
      | none =>
          rw [operator] at starts
          by_cases skipped : (isBlank (charAt text 0) || charAt text 0 == '#') = true
          · simp [skipped] at starts
          · simp only [skipped, Bool.false_eq_true, if_false] at starts
            cases starts
            exact ⟨fun impossible => (by cases impossible), fun impossible => (by cases impossible)⟩
      | some name =>
          rw [operator] at starts
          cases Option.some.inj starts
          split at operator
          · obtain ⟨str, member, _⟩ := operatorAt_prefix operator
            constructor <;> rintro rfl <;> simp [operators] at member
          · cases operator

theorem symbolAt_eq_none {c : Char} {rest : Str} (starts : symbolAt (c :: rest) = none) :
    isBlank c = true ∨ c = '#' := by
  unfold symbolAt at starts
  by_cases ends : c == '\x00'
  · simp [charAt, ends] at starts
  · by_cases newline : c == '\n'
    · simp [charAt, ends, newline] at starts
    · simp only [charAt, List.getD_cons_zero, ends, newline, Bool.false_eq_true, if_false] at starts
      cases operator : (if isOperatorStart c then operatorAt (c :: rest) else none) with
      | some name =>
          rw [operator] at starts
          cases starts
      | none =>
          rw [operator] at starts
          by_cases skipped : (isBlank c || c == '#') = true
          · simpa using skipped
          · simp [skipped] at starts

variable {rest : Str} {parser : Parser}

theorem parserPeekChar_cons {c : Char} (buf : parser.buf = c :: rest) : parserPeekChar parser = .done c parser := by
  simp [parserPeekChar, parserPeekAt, buf, charAt]

/-- The characters of a line. -/
def LineText (line : Str) : Prop := ∀ c ∈ line, c ≠ '\n' ∧ c ≠ '\x00'

theorem LineText.cons {c : Char} {line : Str} (text : LineText (c :: line)) :
    (c ≠ '\n' ∧ c ≠ '\x00') ∧ LineText line := List.forall_mem_cons.mp text

theorem skipComment_line (line : Str) (text : LineText line) (ends : charAt rest 0 = '\n' ∨ charAt rest 0 = '\x00')
    (fuel : Nat) (enough : line.length < fuel) (buf : parser.buf = line ++ rest) :
    ∃ pos continuationLine, skipComment fuel parser = .done () (parser.moved rest pos continuationLine) := by
  induction line generalizing parser fuel with
  | nil =>
      obtain ⟨fuel, rfl⟩ : ∃ more, fuel = more + 1 := ⟨fuel - 1, by simp at enough; omega⟩
      refine ⟨parser.pos, parser.continuationLine, ?_⟩
      rw [List.nil_append] at buf
      have peeked : parserPeekChar parser = .done (charAt rest 0) parser := by rw [← buf]; rfl
      rw [parser.moved_self buf, skipComment, Run.bind_of_done peeked, if_pos (by simpa [or_comm] using ends)]
      rfl
  | cons c line ih =>
      obtain ⟨⟨notNewline, visible⟩, text⟩ := text.cons
      obtain ⟨fuel, rfl⟩ : ∃ more, fuel = more + 1 := ⟨fuel - 1, by simp at enough; omega⟩
      have read := parserReadChar_cons buf visible
      obtain ⟨pos, continuationLine, skipped⟩ := @ih
        (parser.moved (line ++ rest) (parser.pos.advance c) false) text fuel (by simpa using enough) rfl
      refine ⟨pos, continuationLine, ?_⟩
      rw [skipComment, Run.bind_of_done (parserPeekChar_cons buf), if_neg (by simp [notNewline, visible])]
      exact (Run.bind_of_done read).trans skipped

theorem nextSymbolWithin_of_none {c : Char} (fuel : Nat) (buf : parser.buf = c :: rest)
    (starts : symbolAt parser.buf = none) :
    nextSymbolWithin (fuel + 1) parser =
      (if isBlank c then do
        let _ ← parserReadChar
        nextSymbolWithin fuel
      else do
        skipComment (parser.buf.length + 1)
        nextSymbolWithin fuel : Parse Unit) { parser with hasSym := true } := by
  let noted : Parser := { parser with hasSym := true }
  have notedBuf : noted.buf = c :: rest := buf
  have skips : isBlank c = true ∨ c = '#' := symbolAt_eq_none (by rw [← starts, buf])
  rw [nextSymbolWithin, Run.bind_apply, Run.modify_apply, Outcome.andThen_done]
  change (parserPeekChar >>= _) noted = _
  rw [Run.bind_of_done (parserPeekChar_cons notedBuf)]
  rcases skips with blank | rfl
  · have first : c = ' ' ∨ c = '\t' := by simpa [isBlank] using blank
    rcases first with rfl | rfl <;> simp [isOperatorStart, isBlank, noted]
  · simp [isOperatorStart, isBlank, noted]

/-- The symbol that is found is the one that the text goes on with. -/
theorem nextSymbolWithin_finds (fuel : Nat) {after : Parser} (ended : nextSymbolWithin fuel parser = .done () after) :
    after.hasSym = true ∧ symbolAt after.buf = some after.sym := by
  induction fuel generalizing parser with
  | zero => cases ended
  | succ fuel ih =>
      cases starts : symbolAt parser.buf with
      | some sym =>
          rw [nextSymbolWithin_of_symbolAt parser fuel starts] at ended
          cases ended
          exact ⟨rfl, starts⟩
      | none =>
          cases buf : parser.buf with
          | nil =>
              rw [buf] at starts
              cases starts
          | cons c rest =>
              rw [nextSymbolWithin_of_none fuel buf starts] at ended
              split at ended
              · obtain ⟨_, between, _, ended⟩ := Run.bind_done.mp ended
                exact ih ended
              · obtain ⟨_, between, _, ended⟩ := Run.bind_done.mp ended
                exact ih ended

/-- The symbol that is found in a line is its newline only where nothing is left of the line. -/
theorem nextSymbolWithin_line (line : Str) (text : LineText line) (fuel : Nat) (enough : line.length < fuel)
    (buf : parser.buf = line ++ '\n' :: rest) :
    ∃ left pos continuationLine sym, nextSymbolWithin fuel parser =
        .done () { parser.moved (left ++ '\n' :: rest) pos continuationLine with hasSym := true, sym } ∧
      (sym = .newline → left = []) := by
  induction fuel generalizing line parser with
  | zero => omega
  | succ fuel ih =>
      cases starts : symbolAt parser.buf with
      | some sym =>
          refine ⟨line, parser.pos, parser.continuationLine, sym, ?_, ?_⟩
          · rw [nextSymbolWithin_of_symbolAt parser fuel starts, parser.moved_self buf]
          · intro isNewline
            have first := (symbolAt_char starts).2 isNewline
            rw [buf] at first
            cases line with
            | nil => rfl
            | cons c line => exact absurd first text.cons.1.1
      | none =>
          cases line with
          | nil =>
              rw [buf] at starts
              cases starts
          | cons c line =>
              rw [nextSymbolWithin_of_none fuel buf starts]
              by_cases blank : isBlank c = true
              · have read := @parserReadChar_cons (line ++ '\n' :: rest) { parser with hasSym := true } c buf
                  text.cons.1.2
                rw [if_pos blank, Run.bind_of_done read]
                obtain ⟨left, pos, continuationLine, sym, found, ends⟩ := @ih
                  ({ parser with hasSym := true }.moved (line ++ '\n' :: rest) (parser.pos.advance c) false) line
                  text.cons.2 (by simpa using enough) rfl
                exact ⟨left, pos, continuationLine, sym, found, ends⟩
              · obtain ⟨pos, continuationLine, skipped⟩ :=
                  @skipComment_line ('\n' :: rest) { parser with hasSym := true }
                  (c :: line) text (.inl rfl) (parser.buf.length + 1) (by rw [buf, List.length_append]; omega) buf
                rw [if_neg blank, Run.bind_of_done skipped]
                obtain ⟨left, pos, continuationLine, sym, found, ends⟩ := @ih
                  ({ parser with hasSym := true }.moved ('\n' :: rest) pos continuationLine) [] (by simp [LineText])
                  (by simp at enough ⊢; omega) rfl
                exact ⟨left, pos, continuationLine, sym, found, ends⟩

theorem newline_of_symbol {found : Parser} (got : getSymbol parser = .done .newline found)
    (buf : found.buf = '\n' :: rest) :
    newline parser =
      .done true { found.moved rest (found.pos.advance '\n') false with hasSym := false } := by
  have read := parserReadChar_cons buf (by decide)
  simp [newline, symbol, got, read, assert, consumeSymbol, Parser.moved]

/-- A newline is found, unless another symbol has been found before. -/
theorem getSymbol_newline (settled : parser.hasSym = true → parser.sym = .newline) (buf : parser.buf = '\n' :: rest) :
    ∃ found, getSymbol parser = .done .newline found ∧ found.buf = '\n' :: rest ∧ found.bodies = parser.bodies ∧
      found.hereDocuments = parser.hereDocuments ∧ found.nextAddress = parser.nextAddress := by
  cases pending : parser.hasSym with
  | true =>
      refine ⟨parser, ?_, buf, rfl, rfl, rfl⟩
      simp [getSymbol, pending, settled pending]
  | false =>
      have starts : symbolAt parser.buf = some .newline := by rw [buf]; rfl
      have next := nextSymbolWithin_of_symbolAt parser parser.buf.length starts
      refine ⟨{ parser with hasSym := true, sym := .newline }, ?_, buf, rfl, rfl, rfl⟩
      simp [getSymbol, pending, nextSymbol, bufferFuel, next]

theorem newline_line (line : Str) (text : LineText line) (idle : parser.hasSym = false)
    (buf : parser.buf = line ++ '\n' :: rest) :
    (∃ pos, newline parser = .done true
      { parser.moved rest pos false with hasSym := false, sym := .newline }) ∨
    ∃ after, newline parser = .done false after ∧ after.bodies = parser.bodies := by
  obtain ⟨left, pos, continuationLine, sym, found, ends⟩ := nextSymbolWithin_line line text
    (parser.buf.length + 1) (by rw [buf, List.length_append]; omega) buf
  have got : getSymbol parser = .done sym
      { parser.moved (left ++ '\n' :: rest) pos continuationLine with hasSym := true, sym } := by
    simp [getSymbol, idle, nextSymbol, bufferFuel, found]
  by_cases isNewline : sym = .newline
  · obtain rfl := ends isNewline
    obtain rfl := isNewline
    exact .inl ⟨pos.advance '\n', newline_of_symbol got rfl⟩
  · refine .inr ⟨{ parser.moved (left ++ '\n' :: rest) pos continuationLine with hasSym := true, sym }, ?_, rfl⟩
    simp [newline, symbol, got, isNewline]

/-! ## Reading without knowing the text -/

/-- What reading symbols does to a parser. -/
def Advances (before after : Parser) : Prop :=
  after.bodies = before.bodies ∧ after.buf.length ≤ before.buf.length

theorem Advances.trans {before between after : Parser} (first : Advances before between)
    (second : Advances between after) : Advances before after :=
  ⟨second.1.trans first.1, Nat.le_trans second.2 first.2⟩

theorem parserReadChar_inv {c : Char} {after : Parser} (read : parserReadChar parser = .done c after) :
    Advances parser after ∧ after.buf.length < parser.buf.length := by
  unfold parserReadChar at read
  rw [Run.bind_apply, Run.get_apply, Outcome.andThen_done] at read
  cases buf : parser.buf with
  | nil =>
      rw [buf] at read
      cases read
  | cons first rest =>
      rw [buf] at read
      by_cases ends : first = '\x00'
      · simp [ends] at read
      · simp only [ends, if_false] at read
        cases read
        simp [Advances, buf]

theorem skipComment_advances {fuel : Nat} {after : Parser} (skipped : skipComment fuel parser = .done () after) :
    Advances parser after := by
  induction fuel generalizing parser with
  | zero => cases skipped
  | succ fuel ih =>
      rw [skipComment, Run.bind_done] at skipped
      obtain ⟨c, _, peeked, skipped⟩ := skipped
      cases peeked
      split at skipped
      · cases skipped
        exact ⟨rfl, Nat.le_refl _⟩
      · rw [Run.bind_done] at skipped
        obtain ⟨_, between, read, skipped⟩ := skipped
        exact (parserReadChar_inv read).1.trans (ih skipped)

theorem nextSymbolWithin_advances {fuel : Nat} {after : Parser}
    (found : nextSymbolWithin fuel parser = .done () after) :
    Advances parser after ∧ after.hasSym = true ∧ (after.sym = .eofToken → charAt after.buf 0 = '\x00') := by
  induction fuel generalizing parser with
  | zero => cases found
  | succ fuel ih =>
      cases starts : symbolAt parser.buf with
      | some sym =>
          rw [nextSymbolWithin_of_symbolAt parser fuel starts] at found
          cases found
          exact ⟨⟨rfl, Nat.le_refl _⟩, rfl, (symbolAt_char starts).1⟩
      | none =>
          cases buf : parser.buf with
          | nil =>
              rw [buf] at starts
              cases starts
          | cons c rest =>
              rw [nextSymbolWithin_of_none fuel buf starts] at found
              split at found
              · obtain ⟨_, between, read, found⟩ := Run.bind_done.mp found
                obtain ⟨advances, rest⟩ := ih found
                have first := (parserReadChar_inv read).1
                exact ⟨first.trans advances, rest⟩
              · obtain ⟨_, between, skipped, found⟩ := Run.bind_done.mp found
                obtain ⟨advances, rest⟩ := ih found
                have first := skipComment_advances skipped
                exact ⟨first.trans advances, rest⟩

theorem getSymbol_inv {sym : SymbolName} {after : Parser} (idle : parser.hasSym = false)
    (got : getSymbol parser = .done sym after) :
    Advances parser after ∧ after.hasSym = true ∧ after.sym = sym ∧
      (sym = .eofToken → charAt after.buf 0 = '\x00') := by
  unfold getSymbol at got
  obtain ⟨_, _, pending, got⟩ := Run.bind_done.mp got
  cases pending
  simp only [idle, Bool.false_eq_true, if_false] at got
  obtain ⟨_, found, next, got⟩ := Run.bind_done.mp got
  cases got
  obtain ⟨_, _, fuel, next⟩ := Run.bind_done.mp next
  cases fuel
  obtain ⟨advances, hasSym, ends⟩ := nextSymbolWithin_advances next
  exact ⟨advances, hasSym, rfl, ends⟩

theorem symbol_inv {name : SymbolName} {is : Bool} {after : Parser} (tested : symbol name parser = .done is after) :
    ∃ sym, getSymbol parser = .done sym after ∧ is = (sym == name) := by
  obtain ⟨sym, _, got, tested⟩ := Run.bind_done.mp tested
  cases tested
  exact ⟨sym, got, rfl⟩

theorem getSymbol_pending (pending : parser.hasSym = true) : getSymbol parser = .done parser.sym parser := by
  simp [getSymbol, pending]

theorem newline_inv {is : Bool} {after : Parser} (tested : newline parser = .done is after) :
    ∃ sym found, getSymbol parser = .done sym found ∧
      if is then Advances found after ∧ after.buf.length < found.buf.length else after = found := by
  unfold newline at tested
  obtain ⟨isNewline, found, current, tested⟩ := Run.bind_done.mp tested
  obtain ⟨sym, got, rfl⟩ := symbol_inv current
  refine ⟨sym, found, got, ?_⟩
  split at tested
  · obtain ⟨c, between, read, tested⟩ := Run.bind_done.mp tested
    obtain ⟨_, _, checked, tested⟩ := Run.bind_done.mp tested
    unfold assert at checked
    split at checked
    · cases checked
      obtain ⟨_, _, consumed, tested⟩ := Run.bind_done.mp tested
      cases consumed
      cases tested
      have advances := parserReadChar_inv read
      exact advances
    · cases checked
  · cases tested
    rfl

theorem getSymbol_again {sym : SymbolName} {found : Parser} (got : getSymbol parser = .done sym found) :
    getSymbol found = .done sym found := by
  cases pending : parser.hasSym with
  | true =>
      rw [getSymbol_pending pending] at got
      obtain ⟨rfl, rfl⟩ := Outcome.done.inj got
      exact getSymbol_pending pending
  | false =>
      obtain ⟨_, hasSym, rfl, _⟩ := getSymbol_inv pending got
      exact getSymbol_pending hasSym

theorem symbol_of_getSymbol {sym : SymbolName} {found : Parser} (got : getSymbol parser = .done sym found)
    (name : SymbolName) : symbol name parser = .done (sym == name) found := by
  simp [symbol, got]

theorem newline_other {sym : SymbolName} {found : Parser} (got : getSymbol parser = .done sym found)
    (different : sym ≠ .newline) : newline parser = .done false found := by
  simp [newline, symbol_of_getSymbol got, different]

theorem linebreak_other {sym : SymbolName} {found : Parser} (got : getSymbol parser = .done sym found)
    (different : sym ≠ .newline) : linebreak parser = .done () found := by
  simp [linebreak, bufferFuel, linebreakWithin, newline_other got different]

theorem getSymbol_end (idle : parser.hasSym = false) (buf : parser.buf = []) :
    getSymbol parser = .done .eofToken { parser with hasSym := true, sym := .eofToken } := by
  have starts : symbolAt parser.buf = some .eofToken := by rw [buf]; rfl
  have next := nextSymbolWithin_of_symbolAt parser parser.buf.length starts
  simp [getSymbol, idle, nextSymbol, bufferFuel, next]

theorem getSymbol_advances {sym : SymbolName} {after : Parser} (got : getSymbol parser = .done sym after) :
    Advances parser after := by
  cases pending : parser.hasSym with
  | true =>
      rw [getSymbol_pending pending] at got
      obtain ⟨_, rfl⟩ := Outcome.done.inj got
      exact ⟨rfl, Nat.le_refl _⟩
  | false => exact (getSymbol_inv pending got).1

end Mrsh
