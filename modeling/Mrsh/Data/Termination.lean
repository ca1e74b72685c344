import Mathlib.Logic.Relation
import Mathlib.Order.WellFounded

namespace Mrsh.Data

open Relation

/-! # Loops that end

A loop makes one step after the other. Where a good step lowers a rank before the
next step, and a bad one is followed by another bad one, the loop ends if and only
if no bad step is reached.
-/

variable {σ : Type} {Step : σ → σ → Prop} {state : σ}

/-- No endless sequence of steps starts in `state`. -/
def Ends (Step : σ → σ → Prop) (state : σ) : Prop := Acc (flip Step) state

theorem Ends.reached {last : σ} (ends : Ends Step state) (reaches : ReflTransGen Step state last) : Ends Step last := by
  induction reaches with
  | refl => exact ends
  | tail _ step ih => exact ih.inv step

/-- Where each state of a kind has a step to another one of it, no loop ends. -/
theorem not_ends (kind : σ → Prop) (goes : ∀ state, kind state → ∃ next, Step state next ∧ kind next)
    (isKind : kind state) : ¬ Ends Step state := by
  intro ends
  induction ends with
  | intro state _ ih =>
      obtain ⟨next, step, nextKind⟩ := goes state isKind
      exact ih next step nextKind

theorem ends_of_rank {τ : Type} {lower : τ → τ → Prop} (wellFounded : WellFounded lower) (rank : σ → τ)
    (lowers : ∀ next later, ReflTransGen Step state next → Step next later → (∃ last, Step later last) →
      lower (rank later) (rank next)) : Ends Step state := by
  have from_here : ∀ value reached, rank reached = value → ReflTransGen Step state reached → Ends Step reached := by
    intro value
    induction value using wellFounded.induction with
    | _ value ih =>
        rintro reached rfl reaches
        refine ⟨_, fun next step => ?_⟩
        by_cases more : ∃ last, Step next last
        · exact ih _ (lowers reached next reaches step more) next rfl (reaches.tail step)
        · exact ⟨_, fun last step => absurd ⟨last, step⟩ more⟩
  exact from_here _ state rfl .refl

theorem ends_iff_good {τ : Type} {lower : τ → τ → Prop} (wellFounded : WellFounded lower) (rank : σ → τ)
    (good : σ → Prop)
    (lowers : ∀ state next, Step state next → good state → (∃ last, Step next last) → lower (rank next) (rank state))
    (stuck : ∀ state next, Step state next → ¬ good state → (∃ last, Step next last) ∧ ¬ good next) :
    Ends Step state ↔ ∀ reached, ReflTransGen Step state reached → (∃ next, Step reached next) → good reached := by
  constructor
  · intro ends reached reaches ⟨next, step⟩
    by_contra bad
    refine not_ends (fun state => (∃ next, Step state next) ∧ ¬ good state) ?_ ⟨⟨next, step⟩, bad⟩
      (ends.reached reaches)
    rintro state ⟨⟨next, step⟩, bad⟩
    exact ⟨next, step, stuck state next step bad⟩
  · intro allGood
    exact ends_of_rank wellFounded rank fun next later reaches step more =>
      lowers next later step (allGood next reaches ⟨later, step⟩) more

end Mrsh.Data
