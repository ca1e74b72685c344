import Mrsh.Data.Conditions

namespace Mrsh.Data

/-! # Runs with related results

Two programs run alike if from every state both end in one state with related values, or both
stop in related ways. Programs that are built in one way from programs that run alike run alike.
-/

variable {S T : Signature} {ρ σ α β γ δ : Type}

inductive Outcome.Alike (stops : ρ × σ → ρ × σ → Prop) (same : α → β → Prop) : Outcome ρ σ α → Outcome ρ σ β → Prop
  | done {value : α} {other : β} (related : same value other) (state : σ) :
      Outcome.Alike stops same (.done value state) (.done other state)
  | stopped {reason otherReason : ρ} {state otherState : σ}
    (related : stops (reason, state) (otherReason, otherState)) :
      Outcome.Alike stops same (.stopped reason state) (.stopped otherReason otherState)

namespace Outcome.Alike

variable {stops : ρ × σ → ρ × σ → Prop} {same : α → β → Prop} {outcome : Outcome ρ σ α} {other : Outcome ρ σ β}

theorem andThen {sameNext : γ → δ → Prop} {next : α → σ → Outcome ρ σ γ} {otherNext : β → σ → Outcome ρ σ δ}
    (alike : Outcome.Alike stops same outcome other)
    (nextAlike : ∀ value otherValue, same value otherValue → ∀ state,
      Outcome.Alike stops sameNext (next value state) (otherNext otherValue state)) :
    Outcome.Alike stops sameNext (outcome.andThen next) (other.andThen otherNext) := by
  cases alike with
  | done related state => exact nextAlike _ _ related state
  | stopped related => exact .stopped related

end Outcome.Alike

namespace Prog

def RunsAlike (handle : Handler S σ) (stops : ρ × σ → ρ × σ → Prop) (same : α → β → Prop) (first : Prog S ρ α)
    (second : Prog S ρ β) : Prop :=
  ∀ state, Outcome.Alike stops same (first.run handle state) (second.run handle state)

namespace RunsAlike

variable {handle : Handler S σ} {stops : ρ × σ → ρ × σ → Prop} {same : α → β → Prop} {sameNext : γ → δ → Prop}

theorem pure {value : α} {other : β} (related : same value other) :
    RunsAlike handle stops same (Pure.pure value : Prog S ρ α) (Pure.pure other) := fun state => .done related state

theorem stop {reason otherReason : ρ} (related : ∀ state, stops (reason, state) (otherReason, state)) :
    RunsAlike handle stops same (Prog.stop reason : Prog S ρ α) (Prog.stop otherReason : Prog S ρ β) :=
  fun state => .stopped (related state)

theorem refl [Std.Refl stops] (prog : Prog S ρ α) :
    RunsAlike handle stops Eq prog prog := by
  intro state
  cases ended : prog.run handle state with
  | done value after => exact .done rfl after
  | stopped reason after => exact .stopped (Std.Refl.refl _)

theorem bind {first : Prog S ρ α} {second : Prog S ρ β} {next : α → Prog S ρ γ} {other : β → Prog S ρ δ}
    (alike : RunsAlike handle stops same first second)
    (nextAlike : ∀ value otherValue, same value otherValue →
      RunsAlike handle stops sameNext (next value) (other otherValue)) :
    RunsAlike handle stops sameNext (first >>= next) (second >>= other) := by
  intro state
  rw [run_bind, run_bind]
  exact (alike state).andThen nextAlike

/-- One program is followed by programs that run alike for each of its values. -/
theorem bindSame [Std.Refl stops] (first : Prog S ρ α)
    {next : α → Prog S ρ γ} {other : α → Prog S ρ δ}
    (nextAlike : ∀ value, RunsAlike handle stops sameNext (next value) (other value)) :
    RunsAlike handle stops sameNext (first >>= next) (first >>= other) := by
  refine bind (refl first) fun value otherValue related => ?_
  subst related
  exact nextAlike value

theorem map {first : Prog S ρ α} {second : Prog S ρ β} {change : α → γ} {otherChange : β → δ}
    (alike : RunsAlike handle stops same first second)
    (changed : ∀ value other, same value other → sameNext (change value) (otherChange other)) :
    RunsAlike handle stops sameNext (change <$> first) (otherChange <$> second) := by
  rw [map_eq_pure_bind, map_eq_pure_bind]
  exact bind alike fun value other related => pure (changed value other related)

theorem ite {condition : Prop} [Decidable condition] {yes no : Prog S ρ α} {otherYes otherNo : Prog S ρ β}
    (yesAlike : RunsAlike handle stops same yes otherYes) (noAlike : RunsAlike handle stops same no otherNo) :
    RunsAlike handle stops same (if condition then yes else no) (if condition then otherYes else otherNo) := by
  split
  · exact yesAlike
  · exact noAlike

theorem inl {handleMore : Handler T σ} {first : Prog S ρ α} {second : Prog S ρ β}
    (alike : RunsAlike handle stops same first second) :
    RunsAlike (handle.sum handleMore) stops same (first.inl : Prog (S.sum T) ρ α) second.inl := by
  intro state
  rw [run_inl, run_inl]
  exact alike state

end RunsAlike

end Prog

/-! ## Two handlers -/

variable {τ : Type}

/-- The outcomes are the same, in related states. -/
inductive Outcome.Matches (related : σ → τ → Prop) : Outcome ρ σ α → Outcome ρ τ α → Prop
  | done (value : α) {state : σ} {image : τ} (here : related state image) :
      Outcome.Matches related (.done value state) (.done value image)
  | stopped (reason : ρ) {state : σ} {image : τ} (here : related state image) :
      Outcome.Matches related (.stopped reason state) (.stopped reason image)

/-- What holds of every action holds of every program: handlers that reply the same in related
states, and keep them related, are not told apart. -/
theorem Prog.run_matches {handle : Handler S σ} {other : Handler S τ} {related : σ → τ → Prop}
    (handled : ∀ action state image, related state image →
      (handle action state).1 = (other action image).1 ∧ related (handle action state).2 (other action image).2)
    (prog : Prog S ρ α) {state : σ} {image : τ} (start : related state image) :
    Outcome.Matches related (prog.run handle state) (prog.run other image) := by
  induction prog generalizing state image with
  | pure value => exact .done value start
  | stop reason => exact .stopped reason start
  | act action next ih =>
      obtain ⟨same, after⟩ := handled action state image start
      change Outcome.Matches related ((next (handle action state).1).run handle _)
        ((next (other action image).1).run other _)
      rw [same]
      exact ih _ after

end Mrsh.Data
