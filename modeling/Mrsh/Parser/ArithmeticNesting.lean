import Mrsh.Parser.ArithmeticBodies

namespace Mrsh

open Mrsh.Data

/-! # The expressions that are open

Where the counter is wrong, an expression ends too early and the enclosing one goes on with its text. The parser waits
for two closing parentheses for each open expression and for those of the counter. It never waits for more than the text
has, and a counter that is started again within parentheses makes it wait for fewer.
-/

/-- A reading that waits for an expansion. -/
structure Outer where
  wordFuel : Nat
  builder : WordBuilder
  fuel : Nat
  children : List Word

def Outer.resume (self : Productions) (outer : Outer) : Option Word → Parse (List Word)
  | none => pure outer.children
  | some word => (WordReading.inWord outer.wordFuel (outer.builder.add word) outer.fuel outer.children).prog self

def Outer.Enough (left : Nat) (outer : Outer) : Prop := left < outer.wordFuel ∧ left ≤ outer.fuel

/-- What is left to do when an expression has been read. -/
def unwind : Nat → List Outer → Option Word → Parse (Option Word)
  | _, [], result => pure result
  | level, outer :: outers, result => do
      let children ← outer.resume (productions level) result
      let result ← closeArithmetic children
      unwind (level + 1) outers result

/-- The innermost expression, whose words are read or which waits for its second closing parenthesis. -/
inductive Innermost where
  | words (reading : WordReading)
  | closing (body : Word)

def Innermost.prog (self : Productions) : Innermost → Parse (Option Word)
  | .words reading => do
      let children ← reading.prog self
      closeArithmetic children
  | .closing body => secondParen body

structure Nest where
  level : Nat
  innermost : Innermost
  outers : List Outer

namespace Nest

def prog (nest : Nest) : Parse (Option Word) := do
  let result ← nest.innermost.prog (productions nest.level)
  unwind (nest.level + 1) nest.outers result

/-- How many closing parentheses the parser waits for. -/
def expected (nest : Nest) (counter : Nat) : Nat :=
  match nest.innermost with
  | .words _ => 2 * nest.outers.length + 2 + counter
  | .closing _ => 2 * nest.outers.length + 1 + counter

/-- The text is ahead, and the loops go on for it. -/
structure At (nest : Nest) (text : Str) (counter : Nat) (parser : Parser) : Prop where
  innermost : match nest.innermost with
    | .words reading => InBody text counter parser ∧ reading.Enough text.length
    | .closing _ => parser.hasSym = false ∧ parser.arithNestedParens = counter ∧
        parser.buf.dropWhile isBlank = text.dropWhile isBlank
  outers : ∀ outer ∈ nest.outers, outer.Enough text.length

/-- The parser ends, without a result or before the text that is left. -/
def Ends (nest : Nest) (parser : Parser) (left : Str) : Prop :=
  ∃ result after, nest.prog parser = .done result after ∧ (result = none ∨ left.length ≤ after.buf.length)

/-- The parser reaches the text that is left, and waits for at most so many closing parentheses. -/
def Reaches (nest : Nest) (parser : Parser) (left : Str) (limit : Nat) : Prop :=
  ∃ (later : Nest) (after : Parser) (counter : Nat), nest.prog parser = later.prog after ∧ later.At left counter after ∧
    later.level + later.outers.length = nest.level + nest.outers.length ∧
    later.outers.length ≤ nest.outers.length ∧ later.expected counter ≤ limit

def Goes (nest : Nest) (parser : Parser) (left : Str) (limit : Nat) : Prop :=
  nest.Reaches parser left limit ∨ nest.Ends parser left

variable {nest : Nest} {parser : Parser} {counter limit : Nat} {text left : Str}

theorem At.shorter (at_ : nest.At text counter parser) (shorter : left.length ≤ text.length) :
    ∀ outer ∈ nest.outers, outer.Enough left.length := by
  intro outer mem
  obtain ⟨wordEnough, listEnough⟩ := at_.outers outer mem
  exact ⟨by omega, by omega⟩

theorem Goes.mono {more : Nat} (goes : nest.Goes parser left limit) (le : limit ≤ more) :
    nest.Goes parser left more := by
  rcases goes with ⟨later, after, counter, run, at_, sum, outers, expected⟩ | ends
  · exact .inl ⟨later, after, counter, run, at_, sum, outers, by omega⟩
  · exact .inr ends

theorem Goes.refl (at_ : nest.At text counter parser) : nest.Goes parser text (nest.expected counter) :=
  .inl ⟨nest, parser, counter, rfl, at_, rfl, Nat.le_refl _, Nat.le_refl _⟩

theorem Goes.trans {middle : Str} {first : Nat} (goes : nest.Goes parser middle first)
    (shorter : left.length ≤ middle.length)
    (next : ∀ (later : Nest) (after : Parser) (counter : Nat), later.At middle counter after →
      later.level + later.outers.length = nest.level + nest.outers.length → later.outers.length ≤ nest.outers.length →
      later.expected counter ≤ first → later.Goes after left limit) : nest.Goes parser left limit := by
  rcases goes with ⟨later, between, counter, run, at_, sum, outers, expected⟩ | ⟨result, after, run, missed⟩
  · rcases next later between counter at_ sum outers expected with
      ⟨last, after, counter, goes, atLast, sumLast, outersLast, expectedLast⟩ | ⟨result, after, goes, missed⟩
    · exact .inl ⟨last, after, counter, run.trans goes, atLast, sumLast.trans sum, Nat.le_trans outersLast outers,
        expectedLast⟩
    · exact .inr ⟨result, after, run.trans goes, missed⟩
  · exact .inr ⟨result, after, run, missed.imp_right (Nat.le_trans shorter)⟩

theorem expected_outers (nest : Nest) (counter : Nat) : 2 * nest.outers.length + 1 ≤ nest.expected counter := by
  unfold expected
  cases nest.innermost with
  | words reading =>
      simp only
      omega
  | closing body =>
      simp only
      omega

theorem Goes.nested {inner : Nest} {between : Parser} (same : nest.prog parser = inner.prog between)
    (sum : inner.level + inner.outers.length = nest.level + nest.outers.length)
    (goes : inner.Goes between left limit) (few : limit ≤ 2 * nest.outers.length + 2) :
    nest.Goes parser left limit := by
  rcases goes with ⟨later, after, counter, run, at_, sumLater, _, expected⟩ | ⟨result, after, run, missed⟩
  · have := later.expected_outers counter
    exact .inl ⟨later, after, counter, same.trans run, at_, sumLater.trans sum, by omega, expected⟩
  · exact .inr ⟨result, after, same.trans run, missed⟩

end Nest

/-! ## A parser that is stuck -/

section

variable {parser : Parser}

theorem closeArithmetic_nil (parser : Parser) :
    ∃ error hereDocuments, closeArithmetic [] parser = .done none { parser with error, hereDocuments } := by
  cases failed : parser.error with
  | none =>
      obtain ⟨error, hereDocuments, complained⟩ :=
        parserSetError_leaves parser "expected an arithmetic expression".toList
      have noError : mrshParserError parser = .done none parser := by simp [mrshParserError, failed]
      refine ⟨error, hereDocuments, ?_⟩
      refine (Run.bind_of_done noError).trans ?_
      exact Run.bind_of_done complained
  | some error =>
      have hasError : mrshParserError parser = .done (some error.1) parser := by simp [mrshParserError, failed]
      refine ⟨some error, parser.hereDocuments, ?_⟩
      rw [← failed]
      exact Run.bind_of_done hasError

theorem closeArithmetic_cons {children : List Word} (nonempty : children ≠ []) :
    ∃ body, closeArithmetic children = (do
      match ← expectToken [')'] with
      | none => pure none
      | some _ => secondParen body) := by
  obtain ⟨body, isBody, _⟩ := wordOfList_some (fun _ => []) nonempty
  unfold closeArithmetic
  cases found : wordOfList children with
  | none =>
      rw [found] at isBody
      cases isBody
  | some other => exact ⟨other, rfl⟩

theorem closeArithmetic_blocked (blocked : Blocked parser) (children : List Word) :
    ∃ after, closeArithmetic children parser = .done none after ∧ Blocked after := by
  by_cases empty : children = []
  · obtain ⟨error, hereDocuments, failed⟩ := closeArithmetic_nil parser
    exact ⟨{ parser with error, hereDocuments }, by rw [empty, failed], blocked.hasSym, blocked.other⟩
  · obtain ⟨body, closes⟩ := closeArithmetic_cons empty
    obtain ⟨after, declined, still⟩ := expectToken_blocked blocked
    exact ⟨after, by rw [closes, Run.bind_of_done declined]; rfl, still⟩

theorem unwind_blocked (outers : List Outer) {level : Nat} (blocked : Blocked parser) :
    ∃ after, unwind level outers none parser = .done none after := by
  induction outers generalizing level parser with
  | nil => exact ⟨parser, rfl⟩
  | cons outer outers ih =>
      obtain ⟨between, closed, still⟩ := closeArithmetic_blocked blocked outer.children
      obtain ⟨after, unwound⟩ := @ih between (level + 1) still
      refine ⟨after, ?_⟩
      rw [unwind, Outer.resume, pure_bind, Run.bind_of_done closed, unwound]

theorem Nest.ends_of_blocked {nest : Nest} {between : Parser} {left : Str}
    (ended : nest.innermost.prog (productions nest.level) parser = .done none between) (blocked : Blocked between) :
    nest.Ends parser left := by
  obtain ⟨after, unwound⟩ := @unwind_blocked between nest.outers (nest.level + 1) blocked
  exact ⟨none, after, by rw [prog, Run.bind_of_done ended, unwound], .inl rfl⟩

end

/-! ## The steps of the innermost expression -/

section

variable {parser : Parser} {level counter limit : Nat} {reading : WordReading} {outers : List Outer} {text left : Str}

theorem Innermost.prog_congr {self : Productions} {later : WordReading} {after : Parser}
    (same : reading.prog self parser = later.prog self after) :
    (Innermost.words reading).prog self parser = (Innermost.words later).prog self after := Run.bind_congr_start same

theorem Nest.goes_of_reads (spell : Word → Str) {added middle : Str} {newCounter : Nat}
    (at_ : (⟨level, .words reading, outers⟩ : Nest).At text counter parser)
    (reads : reading.ReadsOn (productions level) spell parser added middle newCounter)
    (shorter : middle.length ≤ text.length)
    (next : ∀ (later : WordReading) (after : Parser),
      (⟨level, .words later, outers⟩ : Nest).At middle newCounter after →
      (⟨level, .words later, outers⟩ : Nest).Goes after left limit) :
    (⟨level, .words reading, outers⟩ : Nest).Goes parser left limit := by
  obtain ⟨later, between, run, inBody, enough, _, _, _⟩ := reads
  have same :
    (⟨level, .words reading, outers⟩ : Nest).prog parser = (⟨level, .words later, outers⟩ : Nest).prog between :=
    Run.bind_congr_start (Innermost.prog_congr run)
  rcases next later between ⟨⟨inBody, enough⟩, at_.shorter shorter⟩ with
    ⟨last, after, counter, goes, rest⟩ | ⟨result, after, ended, missed⟩
  · exact .inl ⟨last, after, counter, same.trans goes, rest⟩
  · exact .inr ⟨result, after, same.trans ended, missed⟩

/-- An expression that waits for its second parenthesis ends without a result at anything else. -/
theorem Nest.ends_closing {body : Word} (at_ : (⟨level, .closing body, outers⟩ : Nest).At text counter parser)
    (notBlank : isBlank (charAt text 0) = false) (other : charAt text 0 ≠ ')') :
    (⟨level, .closing body, outers⟩ : Nest).Ends parser left := by
  obtain ⟨idle, _, same⟩ := at_.innermost
  have ahead : parser.ahead = text := by
    rw [Parser.ahead, idle, if_neg Bool.false_ne_true, same]
    cases text with
    | nil => rfl
    | cons c text => exact List.dropWhile_cons_of_neg (by simpa [charAt] using notBlank)
  obtain ⟨between, declined, blocked⟩ := @expectToken_other parser (by simp [idle]) (by rw [ahead]; exact other)
  refine Nest.ends_of_blocked ?_ blocked
  change (Innermost.closing body).prog (productions level) parser = .done none between
  rw [Innermost.prog, secondParen, Run.bind_of_done declined]
  rfl

theorem Nest.At.skips {body : Word} {spaces : Str}
    (at_ : (⟨level, .closing body, outers⟩ : Nest).At (spaces ++ text) counter parser)
    (blank : ∀ c ∈ spaces, isBlank c = true) : (⟨level, .closing body, outers⟩ : Nest).At text counter parser := by
  obtain ⟨idle, counted, same⟩ := at_.innermost
  refine ⟨⟨idle, counted, ?_⟩, at_.shorter (by simp)⟩
  rw [same, List.dropWhile_append_of_pos blank]

theorem Nest.ends_semicolon (at_ : (⟨level, .words reading, outers⟩ : Nest).At (';' :: text) counter parser) :
    (⟨level, .words reading, outers⟩ : Nest).Ends parser left := by
  obtain ⟨inBody, enough⟩ := at_.innermost
  obtain ⟨wordFuel, builder, fuel, children, entered, _, _, _⟩ :=
    @WordReading.enter (productions level) (fun _ => []) reading
    parser counter ';' text inBody (by decide) (atArithmeticEnd_of inBody.buf (by decide)) enough
  have head : charAt parser.buf 0 = ';' := by
    rw [inBody.buf]
    rfl
  obtain ⟨pos, line, ended⟩ := WordReading.inWord_ends (productions level) wordFuel fuel builder children (.inl head)
    (by rw [head]; decide)
  have words : reading.prog (productions level) parser =
      .done (children ++ [((builder.startAt parser.pos).push parser.pos).word])
        (({ parser with hasSym := false } : Parser).moved (';' :: text) pos line) := by
    rw [entered, ended, inBody.buf]
  obtain ⟨body, closes⟩ := @closeArithmetic_cons (children ++ [((builder.startAt parser.pos).push parser.pos).word])
    (by simp)
  obtain ⟨between, declined, blocked⟩ := @expectToken_other
    (({ parser with hasSym := false } : Parser).moved (';' :: text) pos line) (fun pending => by cases pending)
    (show (';' : Char) ≠ ')' by decide)
  refine Nest.ends_of_blocked ?_ blocked
  change (Innermost.words reading).prog (productions level) parser = .done .none between
  rw [Innermost.prog, Run.bind_of_done words, closes, Run.bind_of_done declined]
  rfl

theorem closeArithmetic_first {children : List Word} (inBody : InBody (')' :: left) 0 parser)
    (enough : ∀ outer ∈ outers, outer.Enough left.length) (nonempty : children ≠ []) (level : Nat) :
    ∃ body after, (closeArithmetic children >>= unwind (level + 1) outers) parser =
        (⟨level, .closing body, outers⟩ : Nest).prog after ∧
      (⟨level, .closing body, outers⟩ : Nest).At left 0 after := by
  obtain ⟨body, closes⟩ := closeArithmetic_cons nonempty
  have ahead : parser.ahead = ')' :: left := by
    rw [Parser.ahead, inBody.buf]
    split
    · rfl
    · rfl
  obtain ⟨range, pos, line, closed⟩ := expectToken_close inBody.ready ahead
  refine ⟨body, { parser.moved left pos line with hasSym := false, sym := .token }, ?_, ⟨rfl, inBody.counter, rfl⟩,
    enough⟩
  rw [closes]
  refine (Run.bind_congr_start (Run.bind_of_done closed)).trans ?_
  rfl

/-- Behind the words of an expression comes its first parenthesis. The expressions without words have no end of their
own. -/
theorem closeArithmetic_unwinds (outers : List Outer) {level : Nat} {children : List Word} {parser : Parser}
    (inBody : InBody (')' :: left) 0 parser) (enough : ∀ outer ∈ outers, outer.Enough left.length) :
    (∃ after, (closeArithmetic children >>= unwind (level + 1) outers) parser = .done none after) ∨
      ∃ (laterLevel : Nat) (body : Word) (later : List Outer) (after : Parser),
        (closeArithmetic children >>= unwind (level + 1) outers) parser =
          (⟨laterLevel, .closing body, later⟩ : Nest).prog after ∧
        (⟨laterLevel, .closing body, later⟩ : Nest).At left 0 after ∧
        laterLevel + later.length = level + outers.length ∧ later.length ≤ outers.length ∧
        (children = [] → later.length < outers.length) := by
  induction outers generalizing level children parser with
  | nil =>
      by_cases empty : children = []
      · obtain ⟨error, hereDocuments, failed⟩ := closeArithmetic_nil parser
        refine .inl ⟨{ parser with error, hereDocuments }, ?_⟩
        rw [empty, Run.bind_of_done failed]
        rfl
      · obtain ⟨body, after, run, at_⟩ := closeArithmetic_first inBody enough empty level
        exact .inr ⟨level, body, [], after, run, at_, rfl, Nat.le_refl _, fun none => absurd none empty⟩
  | cons outer outers ih =>
      by_cases empty : children = []
      · obtain ⟨error, hereDocuments, failed⟩ := closeArithmetic_nil parser
        have inBetween : InBody (')' :: left) 0 { parser with error, hereDocuments } :=
          ⟨inBody.buf, inBody.counter, inBody.ready⟩
        have same : (closeArithmetic children >>= unwind (level + 1) (outer :: outers)) parser =
            (closeArithmetic outer.children >>= unwind (level + 1 + 1) outers)
              { parser with error, hereDocuments } := by
          rw [empty, Run.bind_of_done failed, unwind, Outer.resume, pure_bind]
        rcases @ih (level + 1) outer.children _ inBetween
          fun outer mem => enough outer (List.mem_cons_of_mem _ mem) with
          ⟨after, ended⟩ | ⟨laterLevel, body, later, after, run, at_, sum, outersLe, _⟩
        · exact .inl ⟨after, same.trans ended⟩
        · refine .inr ⟨laterLevel, body, later, after, same.trans run, at_, ?_, ?_, fun _ => ?_⟩
          · rw [List.length_cons]
            omega
          · exact Nat.le_succ_of_le outersLe
          · exact Nat.lt_succ_of_le outersLe
      · obtain ⟨body, after, run, at_⟩ := closeArithmetic_first inBody enough empty level
        exact .inr ⟨level, body, outer :: outers, after, run, at_, rfl, Nat.le_refl _, fun none => absurd none empty⟩

/-- A closing parenthesis without an open one, which is not followed by another. -/
theorem WordReading.unmatched (self : Productions) (inBody : InBody (')' :: left) 0 parser)
    (enough : reading.Enough (left.length + 1)) (other : charAt left 0 ≠ ')') :
    ∃ children after, reading.prog self parser = .done children after ∧ InBody (')' :: left) 0 after := by
  have next : charAt parser.buf 1 ≠ ')' := by
    rw [inBody.buf]
    exact other
  have noEnd : atArithmeticEnd parser = .done false parser := by
    simp [atArithmeticEnd, next]
  obtain ⟨wordFuel, builder, fuel, children, entered, _, _, _⟩ :=
    @WordReading.enter self (fun _ => []) reading parser 0 ')' left
    inBody (by decide) noEnd enough
  have counted : countParen ')' parser = .done true parser := by
    simp [countParen, inBody.counter]
  obtain ⟨error, hereDocuments, failed⟩ :=
    parserSetError_leaves parser "unmatched closing parenthesis in arithmetic expression".toList
  have read :
    arithmeticWordLoop self (wordFuel + 1) builder parser = .done none { parser with error, hereDocuments } := by
    rw [arithmeticWordLoop_paren self wordFuel builder inBody.buf (.inr rfl) noEnd, readArithmeticChar,
      Run.bind_of_done counted, if_pos rfl, Run.bind_of_done failed]
    rfl
  refine ⟨children, { parser with error, hereDocuments }, ?_, inBody.buf, inBody.counter, inBody.ready⟩
  rw [entered, WordReading.prog, Run.bind_of_done read]
  rfl

theorem Nest.goes_close {nest : Nest} (at_ : nest.At (')' :: left) counter parser) :
    nest.Goes parser left (nest.expected counter - 1) := by
  obtain ⟨level, innermost, outers⟩ := nest
  cases innermost with
  | words reading =>
      obtain ⟨inBody, enough⟩ := at_.innermost
      match counter, inBody with
      | counter + 1, inBody =>
          refine goes_of_reads (fun _ => []) at_ (WordReading.reads_close inBody enough) (Nat.le_succ _)
            fun later after at_ => ?_
          exact Goes.refl at_
      | 0, inBody =>
          have words : ∃ children after, reading.prog (productions level) parser = .done children after ∧
              InBody (')' :: left) 0 after := by
            by_cases next : charAt left 0 = ')'
            · obtain ⟨more, rfl⟩ : ∃ more, left = ')' :: more := by
                cases left with
                | nil => exact absurd next (by decide)
                | cons c more => exact ⟨more, by rw [show c = ')' from next]⟩
              obtain ⟨children, after, run, inAfter, _⟩ :=
                WordReading.finishes (productions level) (fun _ => []) inBody enough
              exact ⟨children, after, run, inAfter⟩
            · exact WordReading.unmatched (productions level) inBody enough next
          obtain ⟨children, between, run, inBetween⟩ := words
          have same : (⟨level, .words reading, outers⟩ : Nest).prog parser =
              (closeArithmetic children >>= unwind (level + 1) outers) between := by
            rw [prog, Innermost.prog, bind_assoc, Run.bind_of_done run]
          rcases closeArithmetic_unwinds outers inBetween (at_.shorter (Nat.le_succ _)) with
            ⟨after, ended⟩ | ⟨laterLevel, body, later, after, unwound, atLater, sum, outersLe, _⟩
          · exact .inr ⟨none, after, same.trans ended, .inl rfl⟩
          · refine .inl ⟨⟨laterLevel, .closing body, later⟩, after, 0, same.trans unwound, atLater, sum, outersLe, ?_⟩
            simp only [expected]
            omega
  | closing body =>
      obtain ⟨idle, counted, same⟩ := at_.innermost
      have ahead : parser.ahead = ')' :: left := by
        rw [Parser.ahead, idle, if_neg Bool.false_ne_true, same]
        rfl
      obtain ⟨_, pos, line, closed⟩ :=
        @expectToken_close parser left (fun pending => by rw [idle] at pending; cases pending)
        ahead
      have ends : (Innermost.closing body).prog (productions level) parser = .done (some (.arithmetic body))
          { parser.moved left pos line with hasSym := false, sym := .token } := by
        rw [Innermost.prog, secondParen, Run.bind_of_done closed]
        rfl
      have whole :
        (⟨level, .closing body, outers⟩ : Nest).prog parser = unwind (level + 1) outers (some (.arithmetic body))
          { parser.moved left pos line with hasSym := false, sym := .token } := by
        rw [prog, Run.bind_of_done ends]
      cases outers with
      | nil => exact .inr ⟨_, _, whole, .inr (Nat.le_refl _)⟩
      | cons outer outers =>
          refine .inl ⟨⟨level + 1, .words (.inWord outer.wordFuel (outer.builder.add (.arithmetic body)) outer.fuel
            outer.children), outers⟩, { parser.moved left pos line with hasSym := false, sym := .token }, counter,
            whole.trans ?_, ⟨⟨⟨rfl, counted, fun _ => rfl⟩, ?_⟩, ?_⟩, ?_, ?_, ?_⟩
          · rw [unwind, prog, Innermost.prog, bind_assoc]
            rfl
          · exact at_.shorter (Nat.le_succ _) outer List.mem_cons_self
          · exact fun later mem => at_.shorter (Nat.le_succ _) later (List.mem_cons_of_mem _ mem)
          · simp only [List.length_cons]
            omega
          · exact Nat.le_succ _
          · simp only [expected, List.length_cons]
            omega

theorem Nest.goes_empty {fuel : Nat}
    (at_ : (⟨level, .words (.between fuel []), outers⟩ : Nest).At (')' :: ')' :: left) 0 parser) :
    (⟨level, .words (.between fuel []), outers⟩ : Nest).Goes parser (')' :: left) (2 * outers.length - 1) := by
  obtain ⟨inBody, enough⟩ := at_.innermost
  obtain ⟨children, between, run, inBetween, _, empty, _⟩ :=
    WordReading.finishes (productions level) (fun _ => []) inBody enough
  have none : children = [] := empty.mpr fun has => has rfl
  have same : (⟨level, .words (.between fuel []), outers⟩ : Nest).prog parser =
      (closeArithmetic children >>= unwind (level + 1) outers) between := by
    rw [prog, Innermost.prog, bind_assoc, Run.bind_of_done run]
  rcases closeArithmetic_unwinds outers inBetween (at_.shorter (Nat.le_succ _)) with
    ⟨after, ended⟩ | ⟨laterLevel, body, later, after, unwound, atLater, sum, outersLe, fewer⟩
  · exact .inr ⟨.none, after, same.trans ended, .inl rfl⟩
  · refine .inl ⟨⟨laterLevel, .closing body, later⟩, after, 0, same.trans unwound, atLater, sum, outersLe, ?_⟩
    have := fewer none
    simp only [expected]
    omega

theorem Nest.opens (at_ : (⟨level + 1, .words reading, outers⟩ : Nest).At ('$' :: '(' :: '(' :: text) counter parser) :
    ∃ fuel outer between, (⟨level + 1, .words reading, outers⟩ : Nest).prog parser =
        (⟨level, .words (.between fuel []), outer :: outers⟩ : Nest).prog between ∧
      (⟨level, .words (.between fuel []), outer :: outers⟩ : Nest).At text 0 between := by
  obtain ⟨inBody, enough⟩ := at_.innermost
  obtain ⟨wordFuel, builder, fuel, children, entered, wordEnough, listEnough, _⟩ := @WordReading.enter
    (productions (level + 1)) (fun _ => []) reading parser counter '$' ('(' :: '(' :: text) inBody (by decide)
    (atArithmeticEnd_of inBody.buf (by decide)) enough
  obtain ⟨pos, opened⟩ :=
    @expectWordArithmetic_opens (parser.moved ('(' :: '(' :: text) (parser.pos.advance '$') false) text
    level rfl
  refine ⟨text.length + 1, ⟨wordFuel, (builder.startAt parser.pos).push parser.pos, fuel, children⟩,
    { parser.moved text pos false with arithNestedParens := 0 }, ?_,
      ⟨⟨⟨rfl, rfl, inBody.ready⟩, Nat.lt_succ_self _⟩, ?_⟩⟩
  · have started := arithmeticWordLoop_starts (productions (level + 1)) wordFuel builder inBody.buf (by decide)
    have same : nestedProduction (productions (level + 1)) '$' parser =
        (Innermost.words (.between (text.length + 1) [])).prog (productions level)
          { parser.moved text pos false with arithNestedParens := 0 } :=
      (nestedProduction_arithmetic _ inBody.buf).trans opened
    rw [prog, Innermost.prog, bind_assoc, Run.bind_congr_start entered, WordReading.prog, bind_assoc,
      Run.bind_congr_start started, nestedWord, getPos, bind_assoc, Run.gets_bind,
      bind_assoc, Run.bind_congr_start same]
    refine congrArg (fun run : Parse (Option Word) => run _) (bind_congr fun result => ?_)
    cases result with
    | none => rfl
    | some word => exact (bind_assoc _ _ _).symm
  · intro later mem
    rcases List.mem_cons.mp mem with rfl | mem
    · rw [List.length_cons, List.length_cons] at wordEnough listEnough
      change text.length < wordFuel ∧ text.length ≤ fuel
      omega
    · exact at_.shorter (by simp only [List.length_cons]; omega) later mem

end

/-! ## Bodies that are not counted -/

namespace ArithBody

variable {spell : Word → Str} {least : Nat}

/-- Behind the body the parser waits for no more parentheses than before. -/
def Passes (spell : Word → Str) (least : Nat) (body : ArithBody) : Prop :=
  ∀ (following : Str) (nest : Nest) (counter : Nat) (parser : Parser), body.WellFormed spell least following →
    least + body.nesting ≤ nest.level → nest.At (body.text ++ following) counter parser →
    nest.Goes parser following (nest.expected counter)

/-- Behind the body the parser waits for fewer parentheses than before. -/
def Loses (spell : Word → Str) (least : Nat) (body : ArithBody) : Prop :=
  ∀ (following : Str) (level : Nat) (reading : WordReading) (outers : List Outer) (counter : Nat) (parser : Parser),
    body.WellFormed spell least following → least + body.nesting ≤ level → ¬ body.Counts counter →
    (⟨level, .words reading, outers⟩ : Nest).At (body.text ++ following) counter parser →
    (⟨level, .words reading, outers⟩ : Nest).Goes parser following (2 * outers.length + 1 + counter)

theorem goes_closing (body : ArithBody) {following : Str} {level counter : Nat} {word : Word} {outers : List Outer}
    {parser : Parser} (wellFormed : body.WellFormed spell least following)
    (at_ : (⟨level, .closing word, outers⟩ : Nest).At (body.text ++ following) counter parser) :
    (⟨level, .closing word, outers⟩ : Nest).Goes parser following (2 * outers.length + 1 + counter) := by
  induction body generalizing following with
  | nil => exact .refl at_
  | blanks spaces rest ih =>
      obtain ⟨_, blank, _, wellFormed⟩ := wellFormed
      rw [text, List.append_assoc] at at_
      exact ih wellFormed (at_.skips blank)
  | char c rest =>
      have other := isArithChar_ne wellFormed.1 (show isArithChar ')' = false from rfl)
      have notBlank : isBlank c = false := by
        have plain := wellFormed.1
        simp only [isArithChar, Bool.not_eq_true', Bool.or_eq_false_iff] at plain
        exact plain.2
      exact .inr (Nest.ends_closing at_ notBlank other)
  | shift c rest =>
      rcases wellFormed.1 with rfl | rfl
      · exact .inr (Nest.ends_closing at_ rfl (show ('<' : Char) ≠ ')' by decide))
      · exact .inr (Nest.ends_closing at_ rfl (show ('>' : Char) ≠ ')' by decide))
  | escaped c rest => exact .inr (Nest.ends_closing at_ rfl (show ('\\' : Char) ≠ ')' by decide))
  | paren inner rest => exact .inr (Nest.ends_closing at_ rfl (show ('(' : Char) ≠ ')' by decide))
  | arith inner rest => exact .inr (Nest.ends_closing at_ rfl (show ('$' : Char) ≠ ')' by decide))
  | nested chars resets rest =>
      obtain ⟨⟨c, more, rfl, starts, _⟩, _⟩ := wellFormed
      have facts : ∀ d ∈ ['$', '\x60', '\'', '"'], isBlank d = false ∧ d ≠ ')' := by decide
      exact .inr (Nest.ends_closing at_ (facts c starts).1 (facts c starts).2)

theorem passes_of_loses {body : ArithBody} (loses : body.Loses spell least) : body.Passes spell least := by
  rintro following ⟨level, innermost, outers⟩ counter parser wellFormed deep at_
  cases innermost with
  | closing word => exact body.goes_closing wellFormed at_
  | words reading =>
      by_cases counts : body.Counts counter
      · obtain ⟨inBody, enough⟩ := at_.innermost
        exact Nest.goes_of_reads spell at_ (body.reads wellFormed counts deep inBody enough) (by simp)
          fun later after at_ => .refl at_
      · exact (loses following level reading outers counter parser wellFormed deep counts at_).mono
          (by simp only [Nest.expected]; omega)

/-- Where the counter is started again within parentheses, a parenthesis is missing for good. -/
theorem loses (body : ArithBody) : body.Loses spell least := by
  induction body with
  | nil =>
      intro following level reading outers counter parser _ _ notCounts _
      exact absurd trivial notCounts
  | char c rest ih =>
      rintro following level reading outers counter parser ⟨plain, single, wellFormed⟩ deep notCounts at_
      by_cases ends : c = ';'
      · subst ends
        exact .inr (Nest.ends_semicolon at_)
      · obtain ⟨inBody, enough⟩ := at_.innermost
        exact Nest.goes_of_reads spell at_ (WordReading.reads_char inBody enough plain ends single) (Nat.le_succ _)
          fun later after at_ => ih _ _ _ _ _ _ wellFormed deep (fun counts => notCounts ⟨ends, counts⟩) at_
  | shift c rest ih =>
      rintro following level reading outers counter parser ⟨isShift, wellFormed⟩ deep notCounts at_
      obtain ⟨inBody, enough⟩ := at_.innermost
      exact Nest.goes_of_reads spell at_ (WordReading.reads_shift inBody enough isShift)
        (Nat.le_add_right _ 2) fun later after at_ => ih _ _ _ _ _ _ wellFormed deep notCounts at_
  | blanks spaces rest ih =>
      rintro following level reading outers counter parser ⟨nonempty, blank, stops, wellFormed⟩ deep notCounts at_
      rw [text, List.append_assoc] at at_
      obtain ⟨inBody, enough⟩ := at_.innermost
      exact Nest.goes_of_reads spell at_ (WordReading.reads_blanks inBody enough nonempty blank stops) (by simp)
        fun later after at_ => ih _ _ _ _ _ _ wellFormed deep notCounts at_
  | escaped c rest ih =>
      rintro following level reading outers counter parser ⟨kept, wellFormed⟩ deep notCounts at_
      obtain ⟨inBody, enough⟩ := at_.innermost
      exact Nest.goes_of_reads spell at_ (WordReading.reads_escaped inBody enough kept)
        (Nat.le_add_right _ 2) fun later after at_ => ih _ _ _ _ _ _ wellFormed deep notCounts at_
  | paren inner rest innerIh ih =>
      rintro following level reading outers counter parser ⟨wellFormedInner, wellFormed⟩ deep notCounts at_
      rw [nesting] at deep
      have whole : (paren inner rest).text ++ following = '(' :: (inner.text ++ ')' :: (rest.text ++ following)) := by
        simp [text]
      rw [whole] at at_
      obtain ⟨inBody, enough⟩ := at_.innermost
      refine Nest.goes_of_reads spell at_ (WordReading.reads_open inBody enough) (Nat.le_succ _)
        fun later after at_ => ?_
      obtain ⟨inBody, enough⟩ := at_.innermost
      by_cases countsInner : inner.Counts (counter + 1)
      · refine Nest.goes_of_reads spell at_ (inner.reads wellFormedInner countsInner (by omega) inBody enough) (by simp)
          fun later after at_ => ?_
        obtain ⟨inBody, enough⟩ := at_.innermost
        refine Nest.goes_of_reads spell at_ (WordReading.reads_close inBody enough) (Nat.le_succ _)
          fun later after at_ => ?_
        exact ih _ _ _ _ _ _ wellFormed (by omega) (fun counts => notCounts ⟨countsInner, counts⟩) at_
      · refine (innerIh _ _ _ _ _ _ wellFormedInner (by omega) countsInner at_).trans
          (by simp only [List.length_cons, List.length_append]; omega)
          fun later after laterCounter at_ sum outersLe expected => ?_
        refine (Nest.goes_close at_).trans (by simp only [List.length_append]; omega)
          fun last after lastCounter at_ sumLast outersLast expectedLast => ?_
        refine (passes_of_loses ih _ _ _ _ wellFormed ?_ at_).mono (by omega)
        simp only at sum outersLe
        omega
  | arith inner rest innerIh ih =>
      rintro following level reading outers counter parser ⟨wellFormedInner, wellFormed⟩ deep notCounts at_
      rw [nesting] at deep
      obtain ⟨level, rfl⟩ : ∃ less, level = less + 1 := ⟨level - 1, by omega⟩
      have deepInner : least + inner.nesting ≤ level := by omega
      have whole : (arith inner rest).text ++ following =
          '$' :: '(' :: '(' :: (inner.text ++ ')' :: ')' :: (rest.text ++ following)) := by
        simp [text]
      rw [whole] at at_
      by_cases isRead : inner ≠ nil ∧ inner.Counts 0
      · obtain ⟨some, countsInner⟩ := isRead
        obtain ⟨inBody, enough⟩ := at_.innermost
        refine Nest.goes_of_reads spell at_
          (WordReading.reads_arith inBody enough (unescaped_ne_nil wellFormedInner some) ?_)
          (by simp only [List.length_cons, List.length_append]; omega) fun later after atLater => ?_
        · exact fun inBody enough => inner.reads wellFormedInner countsInner deepInner inBody enough
        by_cases outside : counter = 0
        · subst outside
          exact ih _ _ _ _ _ _ wellFormed (by omega) (fun counts => notCounts ⟨rfl, some, countsInner, counts⟩) atLater
        · refine (passes_of_loses ih _ _ _ _ wellFormed ?_ atLater).mono ?_
          · change least + rest.nesting ≤ level + 1
            omega
          · change 2 * outers.length + 2 + 0 ≤ _
            omega
      · obtain ⟨fuel, outer, between, same, atInner⟩ := Nest.opens at_
        -- The nested expression ends too early, or has no end of its own.
        have inside : (⟨level, .words (.between fuel []), outer :: outers⟩ : Nest).Goes between
            (')' :: (rest.text ++ following)) (2 * outers.length + 2) := by
          by_cases empty : inner = nil
          · subst empty
            exact (Nest.goes_empty atInner).mono (by rw [List.length_cons]; omega)
          · refine (innerIh _ _ _ _ _ _ wellFormedInner deepInner (fun counts => isRead ⟨empty, counts⟩) atInner).trans
              (by simp) fun later after laterCounter at_ _ _ expected => ?_
            rw [List.length_cons] at expected
            exact (Nest.goes_close at_).mono (by omega)
        have closed : (⟨level, .words (.between fuel []), outer :: outers⟩ : Nest).Goes between (rest.text ++ following)
            (2 * outers.length + 1) :=
          inside.trans (by simp) fun later after laterCounter at_ _ _ expected => (Nest.goes_close at_).mono (by omega)
        refine (Nest.Goes.nested same (by simp only [List.length_cons]; omega) closed (Nat.le_succ _)).trans (by simp)
          fun later after laterCounter at_ sum outersLe expected => ?_
        refine (passes_of_loses ih _ _ _ _ wellFormed ?_ at_).mono (by omega)
        simp only at sum outersLe
        omega
  | nested chars resets rest ih =>
      rintro following level reading outers counter parser ⟨isNested, wellFormed⟩ deep notCounts at_
      rw [text, List.append_assoc] at at_
      obtain ⟨inBody, enough⟩ := at_.innermost
      refine Nest.goes_of_reads spell at_ (isNested.reads (Nat.le_of_add_right_le deep) inBody enough) (by simp)
        fun later after at_ => ?_
      by_cases keeps : resets = true → counter = 0
      · have same : (if resets then 0 else counter) = counter := by
          cases resets with
          | false => rfl
          | true => exact (keeps rfl).symm
        rw [same] at at_
        exact ih _ _ _ _ _ _ wellFormed deep (fun counts => notCounts ⟨keeps, counts⟩) at_
      · obtain ⟨isReset, within⟩ := Classical.not_imp.mp keeps
        rw [if_pos isReset] at at_
        have deep : least + rest.nesting ≤ level := deep
        refine (passes_of_loses ih _ ⟨level, .words later, outers⟩ _ _ wellFormed deep at_).mono ?_
        change 2 * outers.length + 2 + 0 ≤ _
        omega

end ArithBody

theorem isNested_singleQuotes {spell : Word → Str} {chars : Str} (quotable : ∀ c ∈ chars, c ≠ '\'' ∧ c ≠ '\x00')
    (spells : ∀ range, spell (.string chars true false range) = '\'' :: (chars ++ ['\''])) (following : Str) :
    IsNested spell 0 ('\'' :: (chars ++ ['\''])) false following := by
  refine ⟨'\'', chars ++ ['\''], rfl, by decide, fun level parser counter _ inBody => ?_⟩
  obtain ⟨range, pos, line, read⟩ := singleQuotes_reads chars quotable inBody.buf
  refine ⟨_, _, read, ⟨rfl, inBody.counter, inBody.ready⟩, ?_, id⟩
  rw [Word.spelled]
  · exact spells range
  all_goals simp

/-! ## The expressions that are read exactly -/

/-- The expression is read up to the parentheses that match its own, and its body is the text between. -/
def ReadsExactly (spell : Word → Str) (level : Nat) (body : ArithBody) (rest : Str) (parser : Parser) : Prop :=
  ∃ word after, expectWordArithmetic (productions level) parser = .done (some (.arithmetic word)) after ∧
    after.buf = rest ∧ after.error = none ∧ word.spelled spell = body.text

section

variable {spell : Word → Str} {least level : Nat} {body : ArithBody} {rest : Str} {parser : Parser}

theorem expectWordArithmetic_nest (buf : parser.buf = '(' :: '(' :: (body.text ++ ')' :: ')' :: rest))
    (ready : parser.hasSym = true → parser.sym = .token) :
    ∃ fuel between, expectWordArithmetic (productions (level + 1)) parser =
        (⟨level, .words (.between fuel []), []⟩ : Nest).prog between ∧
      (⟨level, .words (.between fuel []), []⟩ : Nest).At (body.text ++ ')' :: ')' :: rest) 0 between := by
  obtain ⟨pos, opened⟩ := expectWordArithmetic_opens level buf
  refine ⟨(body.text ++ ')' :: ')' :: rest).length + 1,
    { parser.moved (body.text ++ ')' :: ')' :: rest) pos false with arithNestedParens := 0 }, opened.trans ?_,
    ⟨⟨rfl, rfl, ready⟩, Nat.lt_succ_self _⟩, fun _ mem => by cases mem⟩
  rw [Nest.prog, Innermost.prog]
  exact congrArg (fun run : Parse (Option Word) => run _) (bind_pure _).symm

theorem Nest.Goes.misses {nest : Nest} {left : Str} (goes : nest.Goes parser left 0)
    (longer : rest.length < left.length) :
    ¬ ∃ word after, nest.prog parser = .done (some word) after ∧ after.buf = rest := by
  rintro ⟨word, after, ended, buf⟩
  rcases goes with ⟨later, between, counter, _, _, _, _, none⟩ | ⟨result, last, run, missed⟩
  · have := later.expected_outers counter
    omega
  · obtain ⟨rfl, rfl⟩ := Outcome.done.inj (run.symm.trans ended)
    rcases missed with impossible | early
    · cases impossible
    · rw [buf] at early
      omega

/-- An expression whose body is empty or not counted ends before its text. -/
theorem expectWordArithmetic_misses (wellFormed : body.WellFormed spell least (')' :: ')' :: rest))
    (deep : least + body.nesting ≤ level) (buf : parser.buf = '(' :: '(' :: (body.text ++ ')' :: ')' :: rest))
    (ready : parser.hasSym = true → parser.sym = .token) (notRead : ¬ (body ≠ .nil ∧ body.Counts 0)) :
    ¬ ∃ word after, expectWordArithmetic (productions (level + 1)) parser = .done (some word) after ∧
      after.buf = rest := by
  obtain ⟨fuel, between, same, at_⟩ := @expectWordArithmetic_nest level body rest parser buf ready
  rw [same]
  by_cases empty : body = .nil
  · subst empty
    exact (Nest.goes_empty at_).misses (Nat.lt_succ_self _)
  · have early := body.loses _ _ _ _ _ _ wellFormed deep (fun counts => notRead ⟨empty, counts⟩) at_
    have closed : (⟨level, .words (.between fuel []), []⟩ : Nest).Goes between (')' :: rest) 0 :=
      early.trans (Nat.le_succ _) fun later after counter atLater _ _ expected =>
        (Nest.goes_close atLater).mono (by simp only [List.length_nil] at expected; omega)
    exact closed.misses (Nat.lt_succ_self _)

/-- An expression is read exactly if and only if its body is not empty, nothing starts the counter again within
parentheses, no `;` ends it and no backslash stands outside quotes, also in the expressions in it. -/
theorem expectWordArithmetic_exact_iff (wellFormed : body.WellFormed spell least (')' :: ')' :: rest))
    (deep : least + body.nesting < level) (buf : parser.buf = '(' :: '(' :: (body.text ++ ')' :: ')' :: rest))
    (ready : parser.hasSym = true → parser.sym = .token) (noError : parser.error = none) :
    ReadsExactly spell level body rest parser ↔ body ≠ .nil ∧ body.Counts 0 ∧ body.Verbatim := by
  obtain ⟨level, rfl⟩ : ∃ less, level = less + 1 := ⟨level - 1, by omega⟩
  have deep : least + body.nesting ≤ level := by omega
  by_cases isRead : body ≠ .nil ∧ body.Counts 0
  · obtain ⟨nonempty, counts⟩ := isRead
    obtain ⟨word, after, read, inAfter, spelled, keeps⟩ := expectWordArithmetic_of_reads
      (ArithBody.unescaped_ne_nil wellFormed nonempty) buf ready
      fun inBody enough => body.reads wellFormed counts deep inBody enough
    constructor
    · rintro ⟨found, last, ended, _, _, whole⟩
      cases read.symm.trans ended
      exact ⟨nonempty, counts, body.unescaped_eq_iff.mp (spelled.symm.trans whole)⟩
    · rintro ⟨_, _, verbatim⟩
      exact ⟨word, after, read, inAfter.buf, keeps noError, spelled.trans (body.unescaped_eq_iff.mpr verbatim)⟩
  · constructor
    · rintro ⟨word, after, ended, left, _, _⟩
      exact absurd ⟨_, after, ended, left⟩ (expectWordArithmetic_misses wellFormed deep buf ready isRead)
    · rintro ⟨nonempty, counts, _⟩
      exact absurd ⟨nonempty, counts⟩ isRead

end

/-- `(1)+$((2))'3'` is read exactly. -/
theorem readsExactly_quoted :
    ReadsExactly (fun _ => "'3'".toList) 2
      (.paren (.char '1' .nil) (.char '+' (.arith (.char '2' .nil) (.nested "'3'".toList false .nil)))) []
      (mrshParserWithData "(((1)+$((2))'3'))".toList) := by
  have quoted : IsNested (fun _ => "'3'".toList) 0 "'3'".toList false "))".toList :=
    @isNested_singleQuotes _ ['3'] (by decide) (fun _ => rfl) _
  have wellFormed : (ArithBody.paren (.char '1' .nil)
      (.char '+' (.arith (.char '2' .nil) (.nested "'3'".toList false .nil)))).WellFormed (fun _ => "'3'".toList) 0
        "))".toList :=
    ⟨⟨rfl, by decide, trivial⟩, rfl, by decide, ⟨rfl, by decide, trivial⟩, quoted, trivial⟩
  refine (@expectWordArithmetic_exact_iff _ _ 2 _ [] (mrshParserWithData "(((1)+$((2))'3'))".toList) wellFormed
    (by decide) rfl (fun pending => by cases pending) rfl).mpr ⟨nofun, ?_, trivial, trivial, trivial⟩
  exact ⟨⟨by decide, trivial⟩, by decide, rfl, nofun, ⟨by decide, trivial⟩, nofun, trivial⟩

/-- `($((1))+2)` is read up to its last parenthesis, which is left over. -/
theorem not_readsExactly_within_parens :
    ¬ ∃ spell, ReadsExactly spell 2 (.paren (.arith (.char '1' .nil) (.char '+' (.char '2' .nil))) .nil) []
      (mrshParserWithData "((($((1))+2)))".toList) := by
  rintro ⟨_, word, after, ended, buf, _⟩
  have left :
    (expectWordArithmetic (productions 2) (mrshParserWithData "((($((1))+2)))".toList)).state.buf = [')'] := by
    decide +kernel
  rw [ended, Outcome.state_done, buf] at left
  cases left

end Mrsh
