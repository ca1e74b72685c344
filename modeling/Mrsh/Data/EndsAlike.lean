import Mrsh.Data.Run

namespace Mrsh.Data.Run

/-! # Runs that end alike

Two runs end alike from a precondition if each state of it leads both to the same
outcome: a value with a state of the postcondition, or a stop for one of the
allowed reasons. With two recursive definitions that only differ in their fuel,
this says that the fuel was enough and that more of it changes nothing.
-/

variable {ρ σ α β : Type} {stops : ρ → Prop}

def EndsAlike (pre : σ → Prop) (stops : ρ → Prop) (post : α → σ → Prop) (first second : Run ρ σ α) : Prop :=
  ∀ state, pre state → first state = second state ∧
    match first state with
    | .done value after => post value after
    | .stopped reason _ => stops reason

namespace EndsAlike

variable {pre : σ → Prop} {post : α → σ → Prop} {first second : Run ρ σ α}

theorem pure {value : α} (holds : ∀ state, pre state → post value state) :
    EndsAlike pre stops post (pure value) (pure value) :=
  fun state admitted => ⟨rfl, holds state admitted⟩

theorem stop {reason : ρ} (allowed : stops reason) :
    EndsAlike pre stops post (stop reason : Run ρ σ α) (stop reason) :=
  fun _ _ => ⟨rfl, allowed⟩

theorem gets {read : σ → α} (holds : ∀ state, pre state → post (read state) state) :
    EndsAlike pre stops post (gets read) (gets read) :=
  fun state admitted => ⟨rfl, holds state admitted⟩

theorem modify {post : Unit → σ → Prop} {change : σ → σ}
    (holds : ∀ state, pre state → post () (change state)) :
    EndsAlike pre stops post (modify change) (modify change) :=
  fun state admitted => ⟨rfl, holds state admitted⟩

theorem bind {post : β → σ → Prop} {middle : α → σ → Prop} {next other : α → Run ρ σ β}
    (firstAlike : EndsAlike pre stops middle first second)
    (nextAlike : ∀ value, EndsAlike (middle value) stops post (next value) (other value)) :
    EndsAlike pre stops post (first >>= next) (second >>= other) := by
  intro state admitted
  obtain ⟨same, reached⟩ := firstAlike state admitted
  rw [bind_apply, bind_apply, ← same]
  cases ended : first state with
  | done value between =>
      rw [ended] at reached
      exact nextAlike value between reached
  | stopped reason between =>
      rw [ended] at reached
      exact ⟨rfl, reached⟩

theorem gets_bind {γ : Type} {post : β → σ → Prop} {read : σ → γ} {next other : γ → Run ρ σ β}
    (nextAlike : ∀ state, pre state → EndsAlike (· = state) stops post (next (read state)) (other (read state))) :
    EndsAlike pre stops post (Run.gets read >>= next) (Run.gets read >>= other) :=
  fun state admitted => nextAlike state admitted state rfl

/-- The precondition is strengthened and the postcondition weakened. -/
theorem consequence {strong : σ → Prop} {weak : α → σ → Prop} (alike : EndsAlike pre stops post first second)
    (strengthen : ∀ state, strong state → pre state) (weaken : ∀ value state, post value state → weak value state) :
    EndsAlike strong stops weak first second := by
  intro state admitted
  obtain ⟨same, reached⟩ := alike state (strengthen state admitted)
  refine ⟨same, ?_⟩
  cases ended : first state with
  | done value after =>
      rw [ended] at reached
      exact weaken value after reached
  | stopped reason after =>
      rw [ended] at reached
      exact reached

theorem ite {condition : Prop} [Decidable condition] {yes no otherYes otherNo : Run ρ σ α}
    (yesAlike : condition → EndsAlike pre stops post yes otherYes)
    (noAlike : ¬ condition → EndsAlike pre stops post no otherNo) :
    EndsAlike pre stops post (if condition then yes else no) (if condition then otherYes else otherNo) := by
  split
  · exact yesAlike ‹_›
  · exact noAlike ‹_›

theorem pointwise (alike : ∀ state, pre state → EndsAlike (· = state) stops post first second) :
    EndsAlike pre stops post first second :=
  fun state admitted => alike state admitted state rfl

end EndsAlike

/-- Where the first run ends with a value, the second ends in the same way. -/
def Extends (first second : Run ρ σ α) : Prop :=
  ∀ state value after, first state = .done value after → second state = .done value after

namespace Extends

theorem refl (run : Run ρ σ α) : Extends run run := fun _ _ _ ended => ended

theorem stop (reason : ρ) (second : Run ρ σ α) : Extends (Run.stop reason) second := by
  intro state value after ended
  cases ended

theorem bind {first second : Run ρ σ α} {next other : α → Run ρ σ β} (firstExtends : Extends first second)
    (nextExtends : ∀ value, Extends (next value) (other value)) : Extends (first >>= next) (second >>= other) := by
  intro state value after ended
  obtain ⟨middle, between, firstEnded, ended⟩ := bind_done.mp ended
  rw [bind_of_done (firstExtends _ _ _ firstEnded)]
  exact nextExtends _ _ _ _ ended

theorem ite {condition : Prop} [Decidable condition] {yes no otherYes otherNo : Run ρ σ α}
    (yesExtends : condition → Extends yes otherYes) (noExtends : ¬ condition → Extends no otherNo) :
    Extends (if condition then yes else no) (if condition then otherYes else otherNo) := by
  split
  · exact yesExtends ‹_›
  · exact noExtends ‹_›

end Extends

end Mrsh.Data.Run
