namespace Mrsh.Data

/-! # Chains of guarded steps

A chain goes on from a status with links, each of which has a guard and a step.
The guard looks at the status so far and decides whether the step runs. Read
from the left, a link whose step does not run leaves the status to the guards
after it. A chain that is nested to the right is given up there.
-/

/-- The steps that ran, and what they leave behind. -/
@[ext]
structure Progress (A τ σ : Type) where
  ran : List A
  status : τ
  state : σ
deriving DecidableEq

namespace Progress

variable {O A τ σ : Type}

def take (step : A → σ → τ × σ) (progress : Progress A τ σ) (a : A) : Progress A τ σ where
  ran := progress.ran ++ [a]
  status := (step a progress.state).1
  state := (step a progress.state).2

section

variable (runs : O → τ → Bool) (step : A → σ → τ × σ)

def followLeft : Progress A τ σ → List (O × A) → Progress A τ σ
  | progress, [] => progress
  | progress, (guard, a) :: links =>
      if runs guard progress.status then followLeft (progress.take step a) links
      else followLeft progress links

def followRight : Progress A τ σ → List (O × A) → Progress A τ σ
  | progress, [] => progress
  | progress, (guard, a) :: links =>
      if runs guard progress.status then followRight (progress.take step a) links
      else progress

/-- No guard lets its step run once a guard has not. -/
def SkipsForGood : Progress A τ σ → List (O × A) → Prop
  | _, [] => True
  | progress, (guard, a) :: links =>
      if runs guard progress.status then SkipsForGood (progress.take step a) links
      else ∀ link ∈ links, runs link.1 progress.status = false

end

variable {runs : O → τ → Bool} {step : A → σ → τ × σ}

theorem length_le_followLeft (progress : Progress A τ σ) (links : List (O × A)) :
    progress.ran.length ≤ (followLeft runs step progress links).ran.length := by
  induction links generalizing progress with
  | nil => exact Nat.le_refl _
  | cons link links ih =>
      unfold followLeft
      split
      · have shorter := ih (progress.take step link.2)
        simp only [take, List.length_append, List.length_singleton] at shorter
        exact Nat.le_of_succ_le shorter
      · exact ih progress

/-- From the left, a chain goes nowhere only if no guard lets its step run. -/
theorem followLeft_eq_self_iff (progress : Progress A τ σ) (links : List (O × A)) :
    followLeft runs step progress links = progress ↔
      ∀ link ∈ links, runs link.1 progress.status = false := by
  induction links with
  | nil => simp [followLeft]
  | cons link links ih =>
      obtain ⟨guard, a⟩ := link
      rw [List.forall_mem_cons]
      cases guarded : runs guard progress.status with
      | true =>
          simp only [followLeft, guarded, if_true, Bool.true_eq_false, false_and, iff_false]
          intro same
          have longer : _ ≤ (followLeft runs step _ links).ran.length :=
            length_le_followLeft (progress.take step a) links
          rw [same] at longer
          simp only [take, List.length_append, List.length_singleton] at longer
          omega
      | false =>
          simp only [followLeft, guarded, Bool.false_eq_true, if_false, true_and]
          exact ih

/-- Both readings run the same steps exactly for the chains that skip for good. -/
theorem followRight_eq_followLeft_iff (progress : Progress A τ σ) (links : List (O × A)) :
    followRight runs step progress links = followLeft runs step progress links ↔
      SkipsForGood runs step progress links := by
  induction links generalizing progress with
  | nil => simp [followRight, followLeft, SkipsForGood]
  | cons link links ih =>
      obtain ⟨guard, a⟩ := link
      unfold followRight followLeft SkipsForGood
      split
      · exact ih _
      · rw [eq_comm]
        exact followLeft_eq_self_iff progress links

end Progress

end Mrsh.Data
