import Mathlib.Data.List.TakeWhile
import Mrsh.Shell.Kernel
import Mrsh.Shell.Redir

namespace Mrsh

open Mrsh.Data

/-! # Writing a here-document to a pipe

Nothing reads the pipe while the shell writes to it. A line that does not fit into an empty
pipe is left to a child together with the lines after it; how much the lines before it take
is not counted.
-/

def lineText (line : Word) : Str := (mrshWordStr line).getD [] ++ ['\n']

def documentText (lines : List Word) : Str := lines.flatMap lineText

/-- Whether the line fits into a pipe that is empty. -/
def fitsPipe (maxSize : Option Nat) (line : Word) : Bool := !maxSize.any (· < (lineText line).length)

/-- The part of the text that was written. -/
def acceptedText (text : Str) : Except Errno Nat → Str
  | .ok n => text.take n
  | .error _ => []

/-- What the calls do to the bytes that were written, and to the number of forks. -/
structure WriteLaws (World : Type) [System World] (sent : World → Str) (forks : World → Nat) : Prop where
  write : ∀ fd text (world : World),
    sent (System.write fd text world).2 = sent world ++ acceptedText text (System.write fd text world).1 ∧
      forks (System.write fd text world).2 = forks world
  pipe : ∀ world : World, sent (System.pipe world).2 = sent world ∧ forks (System.pipe world).2 = forks world
  close : ∀ fd (world : World), sent (System.close fd world).2 = sent world ∧
    forks (System.close fd world).2 = forks world
  fork : ∀ world : World, sent (System.fork world).2 = sent world ∧ forks (System.fork world).2 = forks world + 1

section

variable {World : Type} [System World] {sent : World → Str} {forks : World → Nat} {state after : Shell World}

section

variable (laws : WriteLaws World sent forks)

include laws

theorem writeAll_done {fd : Int} {text : Str}
    (ended : Leaf.run (writeHereDocumentLine.writeAll fd text) state = .done (.ok ()) after) :
    sent after.world = sent state.world ++ text ∧ forks after.world = forks state.world := by
  obtain ⟨written, between, write, ended⟩ := Leaf.run_bind_done.mp ended
  rw [Leaf.run_call] at write
  obtain ⟨reply, world⟩ := Outcome.done.inj write
  have wrote := laws.write fd text state.world
  rw [reply] at wrote
  cases written with
  | error errno =>
      obtain ⟨_, _, _, ended⟩ := Leaf.run_bind_done.mp ended
      obtain ⟨_, _, _, ended⟩ := Leaf.run_bind_done.mp ended
      cases ended
  | ok n =>
      rw [Leaf.run_ite] at ended
      split at ended
      · obtain ⟨_, _, _, ended⟩ := Leaf.run_bind_done.mp ended
        cases ended
      · rename_i whole
        have length : n = text.length := by simpa using whole
        cases ended
        rw [acceptedText, length, List.take_length] at wrote
        rw [← world]
        exact wrote

theorem writeHereDocumentLine_done {fd : Int} {line : Word} {maxSize : Option Nat} {n : Nat}
    (ended : Leaf.run (writeHereDocumentLine fd line maxSize) state = .done (.ok n) after) :
    if fitsPipe maxSize line then
      n ≠ 0 ∧ sent after.world = sent state.world ++ lineText line ∧ forks after.world = forks state.world
    else n = 0 ∧ after = state := by
  obtain ⟨lineStr, between, str, rest⟩ := Leaf.run_bind_done.mp ended
  obtain ⟨written, same⟩ := orCrash_done str
  subst same
  have text : lineText line = lineStr ++ ['\n'] := by rw [lineText, written, Option.getD_some]
  have fits : fitsPipe maxSize line = !maxSize.any (· < lineStr.length + 1) := by
    rw [fitsPipe, text, List.length_append, List.length_singleton]
  rw [Leaf.run_ite] at rest
  split at rest
  · rename_i tooLong
    cases rest
    rw [fits, tooLong]
    exact ⟨rfl, rfl⟩
  · rename_i short
    rw [fits, Bool.not_eq_true _ |>.mp short]
    obtain ⟨lineWritten, middle, writeLine, rest⟩ := Leaf.run_bind_done.mp rest
    cases lineWritten with
    | error errno => cases rest
    | ok _ =>
        obtain ⟨newlineWritten, last, writeNewline, rest⟩ := Leaf.run_bind_done.mp rest
        cases newlineWritten with
        | error errno => cases rest
        | ok _ =>
            cases rest
            obtain ⟨lineSent, lineForks⟩ := writeAll_done laws writeLine
            obtain ⟨newlineSent, newlineForks⟩ := writeAll_done laws writeNewline
            refine ⟨Nat.succ_ne_zero _, ?_, newlineForks.trans lineForks⟩
            rw [newlineSent, lineSent, text, List.append_assoc]

theorem writeHereDocumentLines_done {fd : Int} {lines more : List Word} {maxSize : Option Nat}
    (ended : Leaf.run (writeHereDocumentLines fd maxSize lines) state = .done (.ok more) after) :
    more = lines.dropWhile (fitsPipe maxSize) ∧
      sent after.world = sent state.world ++ documentText (lines.takeWhile (fitsPipe maxSize)) ∧
      forks after.world = forks state.world := by
  induction lines generalizing state with
  | nil =>
      cases ended
      exact ⟨rfl, by simp [documentText], rfl⟩
  | cons line lines ih =>
      obtain ⟨written, between, write, rest⟩ := Leaf.run_bind_done.mp ended
      cases written with
      | error errno => cases rest
      | ok n =>
          have first := writeHereDocumentLine_done laws write
          cases fits : fitsPipe maxSize line with
          | false =>
              rw [fits, if_neg Bool.false_ne_true] at first
              obtain ⟨rfl, rfl⟩ := first
              cases rest
              simp [fits, documentText]
          | true =>
              rw [fits, if_pos rfl] at first
              obtain ⟨nonzero, firstSent, firstForks⟩ := first
              obtain ⟨k, rfl⟩ := Nat.exists_eq_succ_of_ne_zero nonzero
              obtain ⟨left, restSent, restForks⟩ := ih rest
              refine ⟨by rw [left, List.dropWhile_cons_of_pos fits], ?_, restForks.trans firstForks⟩
              rw [restSent, firstSent, List.takeWhile_cons_of_pos fits, documentText, documentText, List.flatMap_cons,
                List.append_assoc]

end

/-! ## Who writes -/

/-- The program ends the process in no run. -/
def NeverExits {α : Type} (prog : Leaf World α) : Prop :=
  ∀ (state after : Shell World) (status : Int), Leaf.run prog state ≠ .stopped (.exited status) after

omit [System World] in
theorem NeverExits.bind {α β : Type} {first : Leaf World α} {next : α → Leaf World β} (never : NeverExits first)
    (nextNever : ∀ value, NeverExits (next value)) : NeverExits (first >>= next) := by
  intro state after status stopped
  rcases Leaf.run_bind_stopped.mp stopped with firstStopped | ⟨value, between, _, nextStopped⟩
  · exact never state after status firstStopped
  · exact nextNever value between after status nextStopped

omit [System World] in
theorem NeverExits.pure {α : Type} (value : α) : NeverExits (pure value : Leaf World α) :=
    fun _ _ _ stopped => nomatch stopped

omit [System World] in
theorem NeverExits.call {α : Type} (request : World → α × World) : NeverExits (call request) :=
  fun _ _ _ stopped => nomatch stopped

omit [System World] in
theorem NeverExits.then_stopped {α β : Type} {first : Leaf World α} {next : α → Leaf World β} {status : Int}
    (never : NeverExits first) (stopped : Leaf.run (first >>= next) state = .stopped (.exited status) after) :
    ∃ value between, Leaf.run first state = .done value between ∧
      Leaf.run (next value) between = .stopped (.exited status) after := by
  rcases Leaf.run_bind_stopped.mp stopped with firstStopped | nextStopped
  · exact absurd firstStopped (never state after status)
  · exact nextStopped

theorem writeAll_neverExits (fd : Int) (text : Str) :
    NeverExits (writeHereDocumentLine.writeAll fd text : Leaf World (Except Errno Unit)) := by
  apply NeverExits.bind (.call _)
  intro written
  cases written with
  | error errno => exact .bind (.pure _) fun _ => .bind (.call _) fun _ => .pure _
  | ok n =>
      dsimp only
      split
      · exact .bind (.call _) fun _ => .pure _
      · exact .pure _

theorem writeHereDocumentLine_neverExits (fd : Int) (line : Word) (maxSize : Option Nat) :
    NeverExits (writeHereDocumentLine fd line maxSize : Leaf World (Except Errno Nat)) := by
  have str : NeverExits (orCrash (mrshWordStr line) : Leaf World Str) := by
    cases mrshWordStr line with
    | none => exact fun _ _ _ stopped => nomatch stopped
    | some text => exact .pure _
  apply str.bind
  intro lineStr
  dsimp only
  split
  · exact .pure _
  · apply (writeAll_neverExits fd lineStr).bind
    intro written
    cases written with
    | error errno => exact .pure _
    | ok _ =>
        apply (writeAll_neverExits fd ['\n']).bind
        intro written
        cases written with
        | error errno => exact .pure _
        | ok _ => exact .pure _

theorem writeHereDocumentLines_neverExits (fd : Int) (maxSize : Option Nat) (lines : List Word) :
    NeverExits (writeHereDocumentLines fd maxSize lines : Leaf World (Except Errno (List Word))) := by
  induction lines with
  | nil => exact .pure _
  | cons line lines ih =>
      apply (writeHereDocumentLine_neverExits fd line maxSize).bind
      intro written
      cases written with
      | error errno => exact .pure _
      | ok n =>
          cases n with
          | zero => exact .pure _
          | succ n => exact ih

def callerLines (lines : List Word) : List Word := lines.takeWhile (fitsPipe (some pipeBuf))

def childLines (lines : List Word) : List Word := lines.dropWhile (fitsPipe (some pipeBuf))

theorem documentText_split (lines : List Word) :
    documentText (callerLines lines) ++ documentText (childLines lines) = documentText lines := by
  rw [documentText, documentText, ← List.flatMap_append, callerLines, childLines, List.takeWhile_append_dropWhile,
    documentText]

theorem documentText_eq_nil_iff (lines : List Word) : documentText lines = [] ↔ lines = [] := by
  cases lines <;> simp [documentText, lineText]

section

variable (laws : WriteLaws World sent forks)

include laws

/-- The caller writes the lines before the first one that does not fit. -/
theorem createHereDocumentFd_caller {lines : List Word} {fd : Int}
    (ended : Leaf.run (createHereDocumentFd lines) state = .done (.ok fd) after) :
    sent after.world = sent state.world ++ documentText (callerLines lines) ∧
      forks after.world = forks state.world + if childLines lines = [] then 0 else 1 := by
  obtain ⟨piped, between, pipe, rest⟩ := Leaf.run_bind_done.mp ended
  rw [Leaf.run_call] at pipe
  obtain ⟨pipeReply, pipeWorld⟩ := Outcome.done.inj pipe
  have pipeKeeps := laws.pipe state.world
  rw [show (System.pipe state.world).2 = between.world by rw [← pipeWorld]] at pipeKeeps
  cases piped with
  | error errno =>
      obtain ⟨_, _, _, rest⟩ := Leaf.run_bind_done.mp rest
      cases rest
  | ok fds =>
      obtain ⟨written, wrote, write, rest⟩ := Leaf.run_bind_done.mp rest
      have closing : ∀ {before : Shell World},
          Leaf.run (do call (System.close fds.2); pure (Except.ok fds.1) : Leaf World (Except Errno Int)) before =
            .done (.ok fd) after →
          sent after.world = sent before.world ∧ forks after.world = forks before.world := by
        intro before closed
        rw [Leaf.run_call_bind] at closed
        cases closed
        exact laws.close fds.2 before.world
      cases written with
      | error errno =>
          obtain ⟨_, _, _, rest⟩ := Leaf.run_bind_done.mp rest
          cases rest
      | ok more =>
          obtain ⟨left, linesSent, linesForks⟩ := writeHereDocumentLines_done laws write
          have left : more = childLines lines := left
          have linesSent : sent wrote.world = sent state.world ++ documentText (callerLines lines) := by
            rw [linesSent, pipeKeeps.1, callerLines]
          have linesForks : forks wrote.world = forks state.world := linesForks.trans pipeKeeps.2
          rw [← left]
          cases more with
          | nil =>
              obtain ⟨closeSent, closeForks⟩ := closing rest
              exact ⟨closeSent.trans linesSent, closeForks.trans linesForks⟩
          | cons line more =>
              obtain ⟨forked, split, fork, rest⟩ := Leaf.run_bind_done.mp rest
              rw [Leaf.run_call] at fork
              obtain ⟨_, forkWorld⟩ := Outcome.done.inj fork
              have forkKeeps := laws.fork wrote.world
              rw [show (System.fork wrote.world).2 = split.world by rw [← forkWorld]] at forkKeeps
              cases forked with
              | error errno =>
                  obtain ⟨_, _, _, rest⟩ := Leaf.run_bind_done.mp rest
                  obtain ⟨_, _, _, rest⟩ := Leaf.run_bind_done.mp rest
                  cases rest
              | ok pid =>
                  rw [Leaf.run_ite] at rest
                  split at rest
                  · obtain ⟨_, _, _, rest⟩ := Leaf.run_bind_done.mp rest
                    obtain ⟨_, _, _, rest⟩ := Leaf.run_bind_done.mp rest
                    obtain ⟨_, _, _, rest⟩ := Leaf.run_bind_done.mp rest
                    cases rest
                  · obtain ⟨closeSent, closeForks⟩ := closing rest
                    rw [closeSent, forkKeeps.1, closeForks, forkKeeps.2, linesForks, if_neg (List.cons_ne_nil _ _)]
                    exact ⟨linesSent, rfl⟩

/-- The child, which goes on where the caller stopped, writes the other lines. -/
theorem createHereDocumentFd_child {lines : List Word}
    (ended : Leaf.run (createHereDocumentFd lines) state = .stopped (.exited 0) after) :
    sent after.world = sent state.world ++ documentText lines := by
  obtain ⟨piped, between, pipe, rest⟩ := (NeverExits.call _).then_stopped ended
  rw [Leaf.run_call] at pipe
  obtain ⟨_, pipeWorld⟩ := Outcome.done.inj pipe
  have pipeKeeps := laws.pipe state.world
  rw [show (System.pipe state.world).2 = between.world by rw [← pipeWorld]] at pipeKeeps
  have failing : ∀ {errno : Errno} {prog : Leaf World Unit} {before : Shell World}, NeverExits prog →
      Leaf.run (do prog; pure (Except.error errno) : Leaf World (Except Errno Int)) before ≠ .stopped
        (.exited 0) after :=
    fun never => (never.bind fun _ => .pure _) _ _ _
  cases piped with
  | error errno => exact absurd rest (failing (.bind (.pure _) fun _ => .call _))
  | ok fds =>
      obtain ⟨written, wrote, write, rest⟩ := (writeHereDocumentLines_neverExits _ _ _).then_stopped rest
      cases written with
      | error errno => exact absurd rest (failing (.bind (.call _) fun _ => .call _))
      | ok more =>
          obtain ⟨left, linesSent, _⟩ := writeHereDocumentLines_done laws write
          have closing : ∀ {before : Shell World},
              Leaf.run (do call (System.close fds.2); pure (Except.ok fds.1) : Leaf World (Except Errno Int)) before ≠
                .stopped (.exited 0) after := fun {before} => (NeverExits.bind (.call _) fun _ => .pure _) before _ _
          cases more with
          | nil => exact absurd rest closing
          | cons line more =>
              obtain ⟨forked, split, fork, rest⟩ := (NeverExits.call _).then_stopped rest
              rw [Leaf.run_call] at fork
              obtain ⟨_, forkWorld⟩ := Outcome.done.inj fork
              have forkKeeps := laws.fork wrote.world
              rw [show (System.fork wrote.world).2 = split.world by rw [← forkWorld]] at forkKeeps
              cases forked with
              | error errno =>
                  exact absurd rest ((NeverExits.bind (.bind (.pure _) fun _ => .call _) fun _ =>
                    .bind (.bind (.call _) fun _ => .call _) fun _ => .pure _) _ _ _)
              | ok pid =>
                  rw [Leaf.run_ite] at rest
                  split at rest
                  · obtain ⟨_, opened, close, rest⟩ := (NeverExits.call _).then_stopped rest
                    obtain ⟨childWritten, childWrote, childWrite, rest⟩ :=
                      (writeHereDocumentLines_neverExits _ _ _).then_stopped rest
                    obtain ⟨_, closed, closeOutput, rest⟩ := (NeverExits.call _).then_stopped rest
                    rw [Leaf.run_call] at close closeOutput
                    cases childWritten with
                    | error errno => cases rest
                    | ok childMore =>
                        cases rest
                        obtain ⟨_, openedWorld⟩ := Outcome.done.inj close
                        obtain ⟨_, closedWorld⟩ := Outcome.done.inj closeOutput
                        have openedSent := (laws.close fds.1 split.world).1
                        have closedSent := (laws.close fds.2 childWrote.world).1
                        rw [show (System.close fds.1 split.world).2 = opened.world by rw [← openedWorld]] at openedSent
                        rw [show (System.close fds.2 childWrote.world).2 = after.world by rw [← closedWorld]]
                          at closedSent
                        have all : (line :: more).takeWhile (fitsPipe none) = line :: more :=
                          List.takeWhile_eq_self_iff.mpr fun _ _ => rfl
                        have childSent := (writeHereDocumentLines_done laws childWrite).2.1
                        have left : line :: more = childLines lines := left
                        rw [closedSent, childSent, all, openedSent, forkKeeps.1, linesSent, pipeKeeps.1, left,
                          List.append_assoc, ← callerLines, documentText_split]
                  · exact absurd rest closing

/-- What the caller wrote before the function returned, and what a child has written when it ends, if there is one. -/
structure Writes (sent : World → Str) (forks : World → Nat) (lines : List Word) (state after : Shell World)
    (own rest : Str) : Prop where
  caller : sent after.world = sent state.world ++ own
  alone : rest = [] → forks after.world = forks state.world
  shared : rest ≠ [] → forks after.world = forks state.world + 1 ∧
    ∀ start ended, Leaf.run (createHereDocumentFd lines) start = .stopped (.exited 0) ended →
      sent ended.world = sent start.world ++ (own ++ rest)

/-- The caller does not block, and the lines are written in order. -/
def WritesWithoutBlocking (sent : World → Str) (forks : World → Nat) (lines : List Word) (state after : Shell World) :
    Prop :=
  ∃ own rest, Writes sent forks lines state after own rest ∧ own ++ rest = documentText lines ∧ own.length ≤ pipeBuf

theorem Writes.own_eq {lines : List Word} {fd : Int} {own rest : Str}
    (writes : Writes sent forks lines state after own rest)
    (ended : Leaf.run (createHereDocumentFd lines) state = .done (.ok fd) after) :
    own = documentText (callerLines lines) :=
  List.append_cancel_left (writes.caller.symm.trans (createHereDocumentFd_caller laws ended).1)

/-- The lines are always written in order, by the caller and by its child. The caller writes more than it may exactly
if the lines before the first one that is too long for a pipe are too long together. -/
theorem createHereDocumentFd_writes_iff {lines : List Word} {fd : Int}
    (ended : Leaf.run (createHereDocumentFd lines) state = .done (.ok fd) after) :
    WritesWithoutBlocking sent forks lines state after ↔ (documentText (callerLines lines)).length ≤ pipeBuf := by
  obtain ⟨callerSent, callerForks⟩ := createHereDocumentFd_caller laws ended
  constructor
  · rintro ⟨own, rest, writes, _, small⟩
    rw [← writes.own_eq laws ended]
    exact small
  · intro small
    refine ⟨_, documentText (childLines lines), ⟨callerSent, fun none => ?_, fun some => ⟨?_, ?_⟩⟩,
      documentText_split lines, small⟩
    · rw [callerForks, if_pos ((documentText_eq_nil_iff _).mp none), Nat.add_zero]
    · rw [callerForks, if_neg fun none => some ((documentText_eq_nil_iff _).mpr none)]
    · intro start ended childEnded
      rw [documentText_split]
      exact createHereDocumentFd_child laws childEnded

end

end

theorem kernel_writeLaws : WriteLaws Kernel Kernel.sent Kernel.forks where
  write fd text kernel := by
    refine ⟨?_, rfl⟩
    change kernel.sent ++ text = kernel.sent ++ text.take text.length
    rw [List.take_length]
  pipe _ := ⟨rfl, rfl⟩
  close _ _ := ⟨rfl, rfl⟩
  fork _ := ⟨rfl, rfl⟩

def kernelShell (inChild : Bool) : Shell Kernel := mrshStateCreate [] (standardKernel inChild)

def textLine (length : Nat) : Word := .string (List.replicate length 'a') false false .invalid

/-- Two short lines are written by the caller, and a long one after them by its child. -/
theorem createHereDocumentFd_writes_short : ∃ after,
    Leaf.run (createHereDocumentFd [textLine 1, textLine 2, textLine 5000]) (kernelShell false) = .done (.ok 3) after ∧
      WritesWithoutBlocking Kernel.sent Kernel.forks [textLine 1, textLine 2, textLine 5000] (kernelShell false)
        after := by
  have ended : (Leaf.run (createHereDocumentFd [textLine 1, textLine 2, textLine 5000]) (kernelShell false)).value? =
      some (.ok 3) := by
    decide +kernel
  have done := Outcome.eq_done_of_value? ended
  exact ⟨_, done, (createHereDocumentFd_writes_iff kernel_writeLaws done).mpr (by decide +kernel)⟩

/-- Two lines that fit into a pipe on their own are too long together. -/
theorem createHereDocumentFd_blocks : ∃ after,
    Leaf.run (createHereDocumentFd [textLine 4000, textLine 4000]) (kernelShell false) = .done (.ok 3) after ∧
      ¬ WritesWithoutBlocking Kernel.sent Kernel.forks [textLine 4000, textLine 4000] (kernelShell false) after := by
  have ended : (Leaf.run (createHereDocumentFd [textLine 4000, textLine 4000]) (kernelShell false)).value? =
      some (.ok 3) := by
    decide +kernel
  have done := Outcome.eq_done_of_value? ended
  refine ⟨_, done, ?_⟩
  rintro ⟨own, rest, writes, _, small⟩
  have long : (documentText (callerLines [textLine 4000, textLine 4000])).length = 8002 := by decide +kernel
  rw [writes.own_eq kernel_writeLaws done, long] at small
  exact absurd small (by decide)

end Mrsh
