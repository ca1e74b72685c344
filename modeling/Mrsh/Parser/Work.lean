import Mrsh.Data.EndsAlike
import Mrsh.Parser.Program

namespace Mrsh

open Mrsh.Data

/-! # The work that is left to a parser

The loops of the parser make progress in two ways: they read a character, or they
consume a token symbol that has become stale, as `word` does for the empty word
at the end of a text or before a blank. Twice the length of the text, and one more
for a stale symbol, falls with both. Half of it is the length of the text, so that
a loop that reads in every pass is bounded by it.
-/

/-- No text that `next_symbol` takes for a token starts like this. -/
def endsToken (buf : Str) : Bool :=
  charAt buf 0 == '\x00' || charAt buf 0 == '\n' || isBlank (charAt buf 0)

def Parser.stale (parser : Parser) : Bool :=
  parser.hasSym && parser.sym == .token && endsToken parser.buf

def Parser.work (parser : Parser) : Nat := 2 * parser.buf.length + parser.stale.toNat

theorem Parser.work_bounds (parser : Parser) :
    2 * parser.buf.length ≤ parser.work ∧ parser.work ≤ 2 * parser.buf.length + 1 := by
  have atMostOne := parser.stale.toNat_le
  simp only [Parser.work]
  omega

/-- Two ways to run the same part of the parser without aliases: where at most `work`
is left, they end in the same way and before their fuel does, with as much work
left as `post` says. -/
def Takes {α : Type} (work : Nat) (post : α → Nat → Prop) (first second : Parse α) : Prop :=
  Run.EndsAlike (fun parser => parser.aliasFunc = none ∧ parser.work ≤ work) (· ≠ Stop.outOfFuel)
    (fun value parser => parser.aliasFunc = none ∧ post value parser.work) first second

/-- No work is added. -/
abbrev Steady {α : Type} (work : Nat) (first second : Parse α) : Prop :=
  Takes work (fun _ left => left ≤ work) first second

/-- A result is paid for with work. -/
abbrev Spends {α : Type} (work : Nat) (first second : Parse (Option α)) : Prop :=
  Takes work (fun value left => left + value.isSome.toNat ≤ work) first second

/-- A character is read. -/
abbrev Consumes {α : Type} (work : Nat) (first second : Parse α) : Prop :=
  Takes work (fun _ left => left / 2 < work / 2) first second

section

variable {α β : Type} {work : Nat} {first second : Parse α}

namespace Takes

variable {post : α → Nat → Prop}

theorem weaken {weak : α → Nat → Prop} (takes : Takes work post first second)
    (weaker : ∀ value left, post value left → weak value left) : Takes work weak first second :=
  Run.EndsAlike.consequence takes (fun _ admitted => admitted)
    fun value _ reached => ⟨reached.1, weaker value _ reached.2⟩

theorem less {small : Nat} (takes : Takes work post first second) (smaller : small ≤ work) :
    Takes small post first second :=
  Run.EndsAlike.consequence takes (fun _ admitted => ⟨admitted.1, Nat.le_trans admitted.2 smaller⟩)
    fun _ _ reached => reached

theorem pure {value : α} (holds : ∀ left, left ≤ work → post value left) :
    Takes work post (pure value) (pure value) :=
  Run.EndsAlike.pure fun _ admitted => ⟨admitted.1, holds _ admitted.2⟩

theorem stop {reason : Stop} (allowed : reason ≠ .outOfFuel) :
    Takes work post (Run.stop reason) (Run.stop reason) := Run.EndsAlike.stop allowed

theorem bind {post : β → Nat → Prop} {middle : α → Nat → Prop} {next other : α → Parse β}
    (firstTakes : Takes work middle first second)
    (nextTakes : ∀ value left, middle value left → Takes left post (next value) (other value)) :
    Takes work post (first >>= next) (second >>= other) := by
  refine Run.EndsAlike.bind firstTakes fun value => Run.EndsAlike.pointwise fun parser reached => ?_
  refine Run.EndsAlike.consequence (nextTakes value _ reached.2) ?_ fun _ _ ended => ended
  rintro _ rfl
  exact ⟨reached.1, Nat.le_refl _⟩

theorem ite {condition : Prop} [Decidable condition] {otherFirst otherSecond : Parse α}
    (yesTakes : condition → Takes work post first second)
    (noTakes : ¬ condition → Takes work post otherFirst otherSecond) :
    Takes work post (if condition then first else otherFirst) (if condition then second else otherSecond) :=
  Run.EndsAlike.ite yesTakes noTakes

end Takes

theorem Steady.pure (value : α) : Steady work (pure value) (pure value) := Takes.pure fun _ kept => kept

theorem Steady.bind {post : β → Nat → Prop} {next other : α → Parse β} (firstSteady : Steady work first second)
    (nextTakes : ∀ value, Takes work post (next value) (other value)) :
    Takes work post (first >>= next) (second >>= other) :=
  Takes.bind firstSteady fun value _ kept => (nextTakes value).less kept

theorem Steady.paid {first second : Parse (Option α)} {left : Nat} (steady : Steady left first second)
    (spent : left < work) : Takes left (fun value rest => rest + value.isSome.toNat ≤ work) first second :=
  steady.weaken fun value rest kept => by
    have atMostOne := value.isSome.toNat_le
    omega

namespace Consumes

theorem bind {next other : α → Parse β} (firstConsumes : Consumes work first second)
    (nextSteady : ∀ value left, left / 2 < work / 2 → Steady left (next value) (other value)) :
    Consumes work (first >>= next) (second >>= other) :=
  Takes.bind firstConsumes fun value left fell =>
    (nextSteady value left fell).weaken fun _ _ kept => by omega

end Consumes

namespace Spends

variable {first second : Parse (Option α)}

theorem steady (spends : Spends work first second) : Steady work first second :=
  spends.weaken fun _ _ paid => by omega

theorem nothing : Spends work (pure none : Parse (Option α)) (pure none) := Takes.pure fun _ kept => kept

theorem bindTakes {post : β → Nat → Prop} {next other : Option α → Parse β} (firstSpends : Spends work first second)
    (noneTakes : Takes work post (next none) (other none))
    (someTakes : ∀ value left, left < work → Takes left post (next (some value)) (other (some value))) :
    Takes work post (first >>= next) (second >>= other) := by
  refine Takes.bind firstSpends fun value left paid => ?_
  cases value with
  | none => exact noneTakes.less paid
  | some value => exact someTakes value left paid

theorem bind {next other : Option α → Parse (Option β)} (firstSpends : Spends work first second)
    (noneSpends : Spends work (next none) (other none))
    (someSteady : ∀ value left, left < work → Steady left (next (some value)) (other (some value))) :
    Spends work (first >>= next) (second >>= other) :=
  bindTakes firstSpends noneSpends fun value left spent => (someSteady value left spent).paid spent

theorem map (change : α → β) (firstSpends : Spends work first second) :
    Spends work (do pure ((← first).map change)) (do pure ((← second).map change)) :=
  bind firstSpends nothing fun _ _ _ => Steady.pure _

end Spends

end

/-! ## Characters and symbols -/

section

variable {α : Type} {work : Nat}

theorem Takes.ends {post : α → Nat → Prop} {first second : Parse α} (takes : Takes work post first second)
    {parser : Parser} (noAliases : parser.aliasFunc = none) (enough : parser.work ≤ work) :
    match first parser with
    | .done value after => after.aliasFunc = none ∧ post value after.work
    | .stopped reason _ => reason ≠ .outOfFuel := by
  have ended := (takes parser ⟨noAliases, enough⟩).2
  cases run : first parser with
  | done value after =>
      rw [run] at ended
      exact ended
  | stopped reason after =>
      rw [run] at ended
      exact ended

/-- What `next_symbol` leaves: a symbol that is not stale, and no more text than before. -/
def Refreshed (length : Nat) (outcome : Outcome Stop Parser Unit) : Prop :=
  match outcome with
  | .done _ after =>
      after.aliasFunc = none ∧ after.hasSym = true ∧ after.stale = false ∧ after.buf.length ≤ length
  | .stopped reason _ => reason ≠ .outOfFuel

theorem Refreshed.after {skip : Parse α} {next : Parse Unit} {parser : Parser} {length : Nat}
    (lengthIs : parser.buf.length = length) (skips : Consumes parser.work skip skip)
    (noAliases : parser.aliasFunc = none)
    (rest : ∀ between : Parser, between.aliasFunc = none → between.buf.length < length →
      Refreshed between.buf.length (next between)) :
    Refreshed length ((skip >>= fun _ => next) parser) := by
  have ended := skips.ends noAliases (Nat.le_refl _)
  rw [Run.bind_apply]
  cases skipped : skip parser with
  | stopped reason between =>
      rw [skipped] at ended
      exact ended
  | done value between =>
      rw [skipped] at ended
      have shorter : between.buf.length < length := by
        have before := parser.work_bounds
        have after := between.work_bounds
        omega
      have refreshed := rest between ended.1 shorter
      simp only [Outcome.andThen_done]
      revert refreshed
      cases next between with
      | done value after =>
          rintro ⟨noAliases, marked, fresh, kept⟩
          exact ⟨noAliases, marked, fresh, by omega⟩
      | stopped reason after => exact fun refreshed => refreshed

end

end Mrsh
