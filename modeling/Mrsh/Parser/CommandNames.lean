import Mrsh.Parser.Footprint
import Mrsh.Parser.Lines
import Mrsh.Parser.LiteralWord

namespace Mrsh

open Mrsh.Data

/-! # The name of a command

`cmd_name` has a reader of its own for a word without quotes and expansions: it measures
the word and takes so many characters. The reader of any word stops at the same place.
-/

theorem Position.valid_advance {pos : Position} (valid : pos.valid = true) (c : Char) :
    (pos.advance c).valid = true := by
  simp only [Position.valid, decide_eq_true_eq] at valid ⊢
  unfold Position.advance
  split
  · exact Nat.succ_pos _
  · exact valid

theorem validPos_allowsReading :
    AllowsReading fun before after : Parser => before.pos.valid = true → after.pos.valid = true where
  refl := ⟨fun _ valid => valid⟩
  trans := ⟨fun _ _ _ first second valid => second (first valid)⟩
  readChar _ c _ _ valid := Position.valid_advance valid c
  symbol _ _ _ valid := valid
  continuation _ valid := valid
  error _ _ _ valid := valid

variable {parser found : Parser} {len : Nat}

theorem peekWord_inv (peeked : peekWord '\x00' parser = .done len found) (nonempty : len ≠ 0) :
    (∀ name, symbol name parser = .done (.token == name) found) ∧
      (∀ name, symbol name found = .done (.token == name) found) ∧
      wordLength '\x00' found.buf = some len := by
  unfold peekWord at peeked
  obtain ⟨isToken, _, tested, peeked⟩ := Run.bind_done.mp peeked
  obtain ⟨sym, got, rfl⟩ := symbol_inv tested
  cases same : sym == SymbolName.token with
  | false =>
      rw [same] at peeked
      cases peeked
      exact absurd rfl nonempty
  | true =>
      obtain rfl := eq_of_beq same
      rw [same] at peeked
      cases measured : wordLength '\x00' found.buf with
      | none =>
          cases peeked
          simp [measured] at nonempty
      | some n =>
          cases peeked
          refine ⟨symbol_of_getSymbol got, symbol_of_getSymbol (getSymbol_again got), ?_⟩
          simp [measured]

/-- `cmd_name` reads a word that it has measured as the reader of any word does. -/
theorem cmdName_eq_word (self : Productions) (parser found : Parser) (len : Nat) (noAlias : parser.aliasFunc = none)
    (valid : parser.pos.valid = true) (peeked : peekWord '\x00' parser = .done len found) (measured : len ≠ 0)
    (notReserved : found.buf.take len ∉ keywords) :
    ∃ after, cmdName self parser =
        .done (some (.string (found.buf.take len) false false ⟨found.pos, after.pos⟩)) after ∧
      word self '\x00' parser = .done (some (.string (found.buf.take len) false false ⟨found.pos, after.pos⟩)) after ∧
      after.buf = found.buf.drop len ∧ after.hasSym = false := by
  obtain ⟨symbol, again, length⟩ := peekWord_inv peeked measured
  obtain ⟨chars, stops, short⟩ := wordLength_eq_some length
  have validAt : found.pos.valid = true := by
    have kept := peekWord_respects validPos_allowsReading '\x00' parser
    rw [peeked] at kept
    exact kept valid
  have taken : (found.buf.take len).length = len := List.length_take_of_le short
  have nonempty : found.buf.take len ≠ [] := by
    intro none
    rw [none] at taken
    exact measured taken.symm
  obtain ⟨begin, pos, continuationLine, read, charsRead, begins⟩ :=
    wordLoop_childReads self (found.buf.take len) chars stops
    found.buf.length .empty found rfl nonempty (List.take_append_drop len found.buf).symm
    (by rw [taken]; exact short)
  have beginsHere : begin = found.pos := begins validAt
  rw [beginsHere] at read
  rw [taken] at charsRead
  refine ⟨{ found.moved (found.buf.drop len) pos continuationLine with hasSym := false }, ?_, ?_, rfl, rfl⟩
  · have noAliases : applyAliases self parser = .done () parser := by simp [applyAliases, noAlias]
    have readWord : readToken len found = .done (some (found.buf.take len, ⟨found.pos, pos⟩))
        { found.moved (found.buf.drop len) pos continuationLine with hasSym := false } := by
      simp [readToken, again, getPos, charsRead, consumeSymbol, Parser.moved]
    unfold cmdName
    rw [Run.bind_of_done noAliases, Run.bind_of_done peeked, if_neg (by simpa using measured), Run.gets_bind,
      if_neg notReserved, Run.bind_of_done readWord]
    rfl
  · obtain ⟨c, rest, starts⟩ := List.exists_cons_of_ne_nil nonempty
    have isLit := chars c (by rw [starts]; exact List.mem_cons_self)
    have ne : ∀ d, isLiteral d = false → (c == d) = false := fun d other => beq_false_of_ne (isLiteral_ne isLit other)
    have notEnd : ¬ (isOperatorStart c || c == ')' || c == '\x00') = true := by
      simp [(isLiteral_plain isLit).1, ne ')' (by decide), ne '\x00' (by decide)]
    have peekedChar : charAt found.buf 0 = c := by
      rw [← List.take_append_drop len found.buf, starts]
      rfl
    unfold word
    rw [Run.bind_of_done (symbol .token), if_pos (by decide), Run.bind_of_done (parserPeekChar_of peekedChar),
      if_neg notEnd, bufferFuel, Run.gets_bind]
    exact read

theorem cmdName_echo :
    ∃ after, cmdName (productions 1) (mrshParserWithData "echo x".toList) =
        .done (some (.string "echo".toList false false ⟨⟨0, 1, 1⟩, after.pos⟩)) after ∧
      word (productions 1) '\x00' (mrshParserWithData "echo x".toList) =
        .done (some (.string "echo".toList false false ⟨⟨0, 1, 1⟩, after.pos⟩)) after ∧
      after.buf = " x".toList ∧ after.hasSym = false :=
  cmdName_eq_word _ (mrshParserWithData "echo x".toList)
    { mrshParserWithData "echo x".toList with hasSym := true, sym := .token } 4 rfl (by decide) rfl (by decide)
    (by decide)

end Mrsh
