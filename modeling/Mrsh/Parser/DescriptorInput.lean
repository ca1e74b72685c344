import Mrsh.Data.RelatedRuns
import Mrsh.Parser.Symbols

namespace Mrsh

open Mrsh.Data

/-! # Input from a descriptor

A parser with a descriptor reads as much of its text as it needs, in the pieces that `read`
returns. It reads the same as a parser that has the whole text from the start.
-/

/-- What `read` returns, before it returns 0 forever. -/
inductive ReadReply where
  | interrupted | failed
  | bytes (first : Char) (more : Str)
deriving DecidableEq

/-- A parser whose buffer holds what was read of the text. -/
structure DescriptorParser where
  parser : Parser
  eof : Bool
  replies : List ReadReply

def mrshParserWithFd (replies : List ReadReply) : DescriptorParser := ⟨mrshParserWithData [], false, replies⟩

/-- The loop of `parser_peek_fd`, which returns -1 if `read` fails. -/
def parserPeekFd (size nRead : Nat) (buf : Str) (replies : List ReadReply) : Option Nat × Str × List ReadReply :=
  if size ≤ nRead then (some nRead, buf, replies)
  else
    match replies with
    | [] => (some nRead, buf, [])
    | .interrupted :: rest => parserPeekFd size nRead buf rest
    | .failed :: rest => (none, buf, rest)
    | .bytes first more :: rest => parserPeekFd size (nRead + (more.length + 1)) (buf ++ first :: more) rest

def DescriptorParser.parserPeek (size : Nat) (state : DescriptorParser) : Nat × DescriptorParser :=
  let nMore := size - state.parser.buf.length
  if nMore = 0 then (size, state)
  else
    let (nRead, buf, replies) := parserPeekFd nMore 0 state.parser.buf state.replies
    let parser := { state.parser with buf }
    match nRead with
    | none => (0, { state with parser := (parserSetError "failed to read".toList parser).state, replies })
    | some nRead =>
        if nMore ≤ nRead then (size, { state with parser, replies })
        else if state.eof then (buf.length, { state with parser, replies })
        else (buf.length + 1, ⟨{ parser with buf := buf ++ ['\x00'] }, true, replies⟩)

/-- `parser_read`, or nothing if its assertion fails. -/
def DescriptorParser.parserRead (size : Nat) (before : DescriptorParser) : Option Str × DescriptorParser :=
  let (n, state) := before.parserPeek size
  let str := state.parser.buf.take n
  if '\x00' ∈ str then (none, state)
  else if n = 0 then (some [], state)
  else (some str, { state with
    parser := state.parser.moved (state.parser.buf.drop n) (str.foldl Position.advance state.parser.pos) false })

/-! ## What the parser does with its text -/

inductive TextAction where
  | peekAt (i : Nat)
  | read (size : Nat)
  | getPos

def textActions : Signature where
  Action := TextAction
  Reply
    | .peekAt _ => Char
    | .read _ => Option Str
    | .getPos => Position

def fromDescriptor : Prog.Handler textActions DescriptorParser
  | .peekAt i, state => (charAt (state.parserPeek (i + 1)).2.parser.buf i, (state.parserPeek (i + 1)).2)
  | .read size, state => state.parserRead size
  | .getPos, state => (state.parser.pos, state)

def fromText : Prog.Handler textActions Parser
  | .peekAt i, parser => (charAt parser.buf i, parser)
  | .read size, parser =>
      match parserRead size parser with
      | .done str after => (some str, after)
      | .stopped _ _ => (none, parser)
  | .getPos, parser => (parser.pos, parser)

theorem parserRead_visible {size : Nat} {parser : Parser} (visible : '\x00' ∉ (parser.buf ++ ['\x00']).take size) :
    parserRead size parser = .done (parser.buf.take size) (parser.moved (parser.buf.drop size)
      ((parser.buf.take size).foldl Position.advance parser.pos)
      (if size = 0 then parser.continuationLine else false)) := by
  induction size generalizing parser with
  | zero => exact congrArg _ (parser.moved_self rfl).symm
  | succ size ih =>
      cases text : parser.buf with
      | nil => simp [text] at visible
      | cons c rest =>
          rw [text, List.cons_append, List.take_succ_cons, List.mem_cons, not_or] at visible
          have later := @ih (parser.moved rest (parser.pos.advance c) false) visible.2
          rw [parserRead, Run.bind_apply, parserReadChar_cons text (Ne.symm visible.1), Outcome.andThen_done,
            Run.bind_apply, later]
          simp [Parser.moved]

theorem parserRead_nul {size : Nat} {parser : Parser} (nul : '\x00' ∈ (parser.buf ++ ['\x00']).take size) :
    ∃ reason after, parserRead size parser = .stopped reason after := by
  induction size generalizing parser with
  | zero => cases nul
  | succ size ih =>
      rw [parserRead, Run.bind_apply]
      cases first : parserReadChar parser with
      | stopped reason after => exact ⟨reason, after, rfl⟩
      | done c between =>
          obtain ⟨rest, pos, text, rfl⟩ := parserReadChar_moved first
          have visible : '\x00' ≠ c := by
            rintro rfl
            simp [parserReadChar, text] at first
          rw [text, List.cons_append, List.take_succ_cons, List.mem_cons, or_iff_right visible] at nul
          obtain ⟨reason, after, stops⟩ := @ih (parser.moved rest pos false) nul
          rw [Outcome.andThen_done, Run.bind_apply, stops]
          exact ⟨reason, after, rfl⟩

/-! ## The text and its pieces -/

/-- What `read` is still to return. -/
def delivered : List ReadReply → Str
  | [] => []
  | .bytes first more :: rest => first :: more ++ delivered rest
  | _ :: rest => delivered rest

/-- The buffer and what is still to come make up the text that is left, with a NUL behind it once
its end was reached. -/
structure Buffers (state : DescriptorParser) (image : Parser) : Prop where
  others : image = { state.parser with buf := image.buf }
  works : .failed ∉ state.replies
  text : state.parser.buf ++ delivered state.replies = image.buf ++ if state.eof then ['\x00'] else []

theorem parserPeekFd_delivers {size nRead : Nat} {buf : Str} {replies : List ReadReply} (works : .failed ∉ replies) :
    ∃ n text rest, parserPeekFd size nRead buf replies = (some n, text, rest) ∧ .failed ∉ rest ∧
      text ++ delivered rest = buf ++ delivered replies ∧ text.length + nRead = buf.length + n ∧
      (size ≤ n ∨ rest = []) := by
  induction replies generalizing nRead buf with
  | nil =>
      refine ⟨nRead, buf, [], ?_, works, rfl, rfl, .inr rfl⟩
      unfold parserPeekFd
      split <;> rfl
  | cons reply rest ih =>
      unfold parserPeekFd
      split
      · rename_i enough
        exact ⟨nRead, buf, _, rfl, works, rfl, rfl, .inl enough⟩
      · rw [List.mem_cons, not_or] at works
        cases reply with
        | interrupted => exact ih works.2
        | failed => exact absurd rfl works.1
        | bytes first more =>
            obtain ⟨n, text, left, ends, still, same, count, enough⟩ :=
              @ih (nRead + (more.length + 1)) (buf ++ first :: more) works.2
            rw [List.append_assoc] at same
            rw [List.length_append, List.length_cons] at count
            exact ⟨n, text, left, ends, still, same, by omega, enough⟩

/-- `parser_peek` shows the next characters of the text and its end. -/
theorem Buffers.parserPeek {state : DescriptorParser} {image : Parser} (buffers : Buffers state image) (size : Nat) :
    Buffers (state.parserPeek size).2 image ∧
      (state.parserPeek size).1 = ((image.buf ++ ['\x00']).take size).length ∧
      (state.parserPeek size).2.parser.buf.take size = (image.buf ++ ['\x00']).take size := by
  obtain ⟨others, works, text⟩ := buffers
  have shown (buf more : Str) (text : buf ++ more = image.buf ++ if state.eof then ['\x00'] else [])
      (enough : size ≤ buf.length) :
      size = ((image.buf ++ ['\x00']).take size).length ∧ buf.take size = (image.buf ++ ['\x00']).take size := by
    have whole : image.buf ++ ['\x00'] = buf ++ (more ++ if state.eof then [] else ['\x00']) := by
      rw [← List.append_assoc, text]
      cases state.eof <;> simp
    rw [whole, List.take_append_of_le_length enough, List.length_take, Nat.min_eq_left enough]
    exact ⟨rfl, rfl⟩
  unfold DescriptorParser.parserPeek
  dsimp only
  split
  · rename_i enough
    exact ⟨⟨others, works, text⟩, shown _ _ text (Nat.sub_eq_zero_iff_le.mp enough)⟩
  · obtain ⟨n, buf, rest, ends, still, same, count, last⟩ :=
      @parserPeekFd_delivers (size - state.parser.buf.length) 0 state.parser.buf state.replies works
    rw [text] at same
    rw [ends]
    dsimp only
    split
    · exact ⟨⟨others, still, same⟩, shown buf _ same (by omega)⟩
    · rename_i short
      obtain rfl := last.resolve_left short
      rw [delivered, List.append_nil] at same
      have all (whole : Str) (isWhole : whole = image.buf ++ ['\x00']) (within : whole.length ≤ size) :
          whole.length = ((image.buf ++ ['\x00']).take size).length ∧
            whole.take size = (image.buf ++ ['\x00']).take size := by
        rw [← isWhole, List.take_of_length_le within]
        exact ⟨rfl, rfl⟩
      cases eof : state.eof with
      | true =>
          rw [eof] at same
          exact ⟨⟨others, still, (List.append_nil buf).trans same⟩, all buf same (by omega)⟩
      | false =>
          rw [eof] at same
          obtain rfl : buf = image.buf := same.trans (List.append_nil _)
          have ended := all (image.buf ++ ['\x00']) rfl (by rw [List.length_append, List.length_singleton]; omega)
          rw [List.length_append] at ended
          exact ⟨⟨others, still, List.append_nil _⟩, ended⟩

/-- `parser_read` takes the same text, or fails the same assertion. -/
theorem Buffers.parserRead {state : DescriptorParser} {image : Parser} (buffers : Buffers state image) (size : Nat) :
    (state.parserRead size).1 = (fromText (.read size) image).1 ∧
      Buffers (state.parserRead size).2 (fromText (.read size) image).2 := by
  obtain ⟨peeked, count, shows⟩ := buffers.parserPeek size
  unfold DescriptorParser.parserRead
  generalize state.parserPeek size = result at *
  obtain ⟨n, after⟩ := result
  dsimp only at *
  have str : after.parser.buf.take n = (image.buf ++ ['\x00']).take size := by
    rw [count, ← shows, List.take_eq_take_iff, List.length_take]
    omega
  rw [str]
  by_cases nul : '\x00' ∈ (image.buf ++ ['\x00']).take size
  · obtain ⟨reason, stopped, stops⟩ := parserRead_nul nul
    rw [if_pos nul, fromText, stops]
    exact ⟨rfl, peeked⟩
  · have inside : size ≤ image.buf.length := by
      by_contra beyond
      rw [List.take_of_length_le (by rw [List.length_append, List.length_singleton]; omega)] at nul
      exact nul (List.mem_append_right _ List.mem_cons_self)
    rw [List.take_append_of_le_length inside, List.length_take, Nat.min_eq_left inside] at count
    subst count
    rw [if_neg nul, fromText, parserRead_visible nul, List.take_append_of_le_length inside]
    obtain ⟨others, works, text⟩ := peeked
    split
    · rename_i none
      subst none
      exact ⟨rfl, others, works, text⟩
    · have buffered := congrArg List.length shows
      rw [List.length_take, List.length_take, List.length_append] at buffered
      have left := congrArg (List.drop n) text
      rw [List.drop_append_of_le_length (by omega), List.drop_append_of_le_length inside] at left
      refine ⟨rfl, ?_, works, left⟩
      rw [others]
      rfl

theorem charAt_take_succ (buf : Str) (i : Nat) : charAt (buf.take (i + 1)) i = charAt buf i := by
  rw [charAt, charAt, List.getD_eq_getElem?_getD, List.getD_eq_getElem?_getD, List.getElem?_take_of_lt i.lt_succ_self]

theorem charAt_terminated (buf : Str) (i : Nat) : charAt (buf ++ ['\x00']) i = charAt buf i := by
  rw [charAt, charAt, List.getD_eq_getElem?_getD, List.getD_eq_getElem?_getD]
  rcases Nat.lt_trichotomy i buf.length with inside | rfl | beyond
  · rw [List.getElem?_append_left inside]
  · rw [List.getElem?_concat_length, List.getElem?_eq_none (Nat.le_refl _)]
    rfl
  · have pastEnd : (buf ++ ['\x00']).length ≤ i := by
      rw [List.length_append, List.length_singleton]
      exact beyond
    rw [List.getElem?_eq_none pastEnd, List.getElem?_eq_none (Nat.le_of_lt beyond)]

/-- However the text arrives, a parser that reads it from a descriptor does what one does that has it. -/
theorem mrshParserWithFd_matches {α : Type} (prog : Prog textActions Stop α) {replies : List ReadReply}
    (works : .failed ∉ replies) :
    Outcome.Matches Buffers (prog.run fromDescriptor (mrshParserWithFd replies))
      (prog.run fromText (mrshParserWithData (delivered replies))) := by
  refine Prog.run_matches (fun action state image buffers => ?_) prog ⟨rfl, works, (List.append_nil _).symm⟩
  cases action with
  | peekAt i =>
      obtain ⟨peeked, -, shows⟩ := buffers.parserPeek (i + 1)
      have same := congrArg (charAt · i) shows
      simp only [charAt_take_succ, charAt_terminated] at same
      exact ⟨same, peeked⟩
  | read size => exact buffers.parserRead size
  | getPos =>
      refine ⟨?_, buffers⟩
      rw [buffers.others]
      rfl

theorem mrshParserWithFd_matches_colon :
    Outcome.Matches Buffers
      ((.act (.read 2) .pure : Prog textActions Stop _).run fromDescriptor
        (mrshParserWithFd [.bytes ':' [], .interrupted, .bytes '\n' []]))
      ((.act (.read 2) .pure : Prog textActions Stop _).run fromText (mrshParserWithData [':', '\n'])) :=
  mrshParserWithFd_matches _ (by decide)

end Mrsh
