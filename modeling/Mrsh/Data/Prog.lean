import Mrsh.Data.Run

namespace Mrsh.Data

/-! # Programs as trees of actions

A program is a tree: an action, and for each reply to it the rest of the
program. A handler says what the actions do to a state, which turns a program
into a run. What every action respects, every program respects, whatever it is.
This makes the signature of a program a promise about its effects: a program
over a small signature that is used in one over a larger signature still leaves
alone what its own actions leave alone.
-/

structure Signature where
  Action : Type
  Reply : Action → Type

/-- Both kinds of actions. -/
@[reducible] def Signature.sum (first second : Signature) : Signature where
  Action := first.Action ⊕ second.Action
  Reply := Sum.elim first.Reply second.Reply

inductive Prog (S : Signature) (ρ α : Type) where
  | pure (value : α)
  | stop (reason : ρ)
  | act (action : S.Action) (next : S.Reply action → Prog S ρ α)

variable {S T : Signature} {ρ σ α β γ : Type}

namespace Prog

protected def bind : Prog S ρ α → (α → Prog S ρ β) → Prog S ρ β
  | .pure value, next => next value
  | .stop reason, _ => .stop reason
  | .act action rest, next => .act action fun reply => (rest reply).bind next

instance : Monad (Prog S ρ) where
  pure := .pure
  bind := Prog.bind

theorem bind_pure_right (prog : Prog S ρ α) : prog.bind .pure = prog := by
  induction prog with
  | pure value => rfl
  | stop reason => rfl
  | act action next ih => simp only [Prog.bind, ih]

theorem bind_assoc (prog : Prog S ρ α) (second : α → Prog S ρ β) (third : β → Prog S ρ γ) :
    (prog.bind second).bind third = prog.bind fun value => (second value).bind third := by
  induction prog with
  | pure value => rfl
  | stop reason => rfl
  | act action next ih => simp only [Prog.bind, ih]

instance : LawfulMonad (Prog S ρ) := LawfulMonad.mk' _
  (fun prog => prog.bind_pure_right)
  (fun _ _ => rfl)
  (fun prog _ _ => prog.bind_assoc _ _)

/-! ## Running a program -/

def Handler (S : Signature) (σ : Type) := (action : S.Action) → σ → S.Reply action × σ

def run (handle : Handler S σ) : Prog S ρ α → Run ρ σ α
  | .pure value => fun state => .done value state
  | .stop reason => fun state => .stopped reason state
  | .act action next => fun state => (next (handle action state).1).run handle (handle action state).2

variable (handle : Handler S σ)

@[simp] theorem run_pure (value : α) (state : σ) :
    (pure value : Prog S ρ α).run handle state = .done value state := rfl

@[simp] theorem run_stop (reason : ρ) (state : σ) :
    (Prog.stop reason : Prog S ρ α).run handle state = .stopped reason state := rfl

@[simp] theorem run_bind (prog : Prog S ρ α) (next : α → Prog S ρ β) (state : σ) :
    (prog >>= next).run handle state =
      (prog.run handle state).andThen fun value after => (next value).run handle after := by
  change (prog.bind next).run handle state = _
  induction prog generalizing state with
  | pure value => rfl
  | stop reason => rfl
  | act action rest ih => exact ih _ _

@[simp] theorem run_map (change : α → β) (prog : Prog S ρ α) (state : σ) :
    (change <$> prog).run handle state =
      (prog.run handle state).andThen fun value after => .done (change value) after := by
  rw [map_eq_pure_bind, run_bind]
  rfl

@[simp] theorem run_ite {condition : Prop} [Decidable condition] (yes no : Prog S ρ α) (state : σ) :
    (if condition then yes else no).run handle state =
      if condition then yes.run handle state else no.run handle state := by
  split <;> rfl

theorem run_bind_done {prog : Prog S ρ α} {next : α → Prog S ρ β} {before after : σ} {value : β} :
    (prog >>= next).run handle before = .done value after ↔
      ∃ middle between, prog.run handle before = .done middle between ∧
        (next middle).run handle between = .done value after := by
  rw [run_bind]
  exact Outcome.andThen_eq_done

theorem run_bind_stopped {prog : Prog S ρ α} {next : α → Prog S ρ β} {before after : σ} {reason : ρ} :
    (prog >>= next).run handle before = .stopped reason after ↔
      prog.run handle before = .stopped reason after ∨
        ∃ middle between, prog.run handle before = .done middle between ∧
          (next middle).run handle between = .stopped reason after := by
  rw [run_bind]
  exact Outcome.andThen_eq_stopped

/-- The actions of a run, each with the state before it. -/
def steps (handle : Handler S σ) : Prog S ρ α → σ → List (S.Action × σ)
  | .pure _, _ => []
  | .stop _, _ => []
  | .act action next, state =>
      (action, state) :: (next (handle action state).1).steps handle (handle action state).2

/-- A run whose actions all meet a condition keeps what every action under the condition
keeps, in each of its states. -/
theorem run_keeps {handle : Handler S σ} {relation : σ → σ → Prop} [Std.Refl relation]
    [IsTrans σ relation] {condition : S.Action → σ → Prop}
    (handled : ∀ action before, condition action before → relation before (handle action before).2)
    (prog : Prog S ρ α) (before : σ) (met : ∀ step ∈ prog.steps handle before, condition step.1 step.2) :
    (∀ step ∈ prog.steps handle before, relation before step.2) ∧
      relation before (prog.run handle before).state := by
  induction prog generalizing before with
  | pure value => exact ⟨by simp [steps], Std.Refl.refl before⟩
  | stop reason => exact ⟨by simp [steps], Std.Refl.refl before⟩
  | act action next ih =>
      rw [steps, List.forall_mem_cons] at met
      have first := handled action before met.1
      obtain ⟨kept, keptAtEnd⟩ := ih _ _ met.2
      refine ⟨?_, IsTrans.trans _ _ _ first keptAtEnd⟩
      rw [steps, List.forall_mem_cons]
      exact ⟨Std.Refl.refl before, fun step reached => IsTrans.trans _ _ _ first (kept step reached)⟩

theorem run_respects {handle : Handler S σ} {relation : σ → σ → Prop} [Std.Refl relation]
    [IsTrans σ relation]
    (handled : ∀ action before, relation before (handle action before).2) (prog : Prog S ρ α) :
    Run.Respects relation (prog.run handle) := by
  induction prog with
  | pure value => exact Run.Respects.pure value
  | stop reason => exact Run.Respects.stop reason
  | act action next ih =>
      intro before
      exact IsTrans.trans _ _ _ (handled action before) (ih _ _)

/-! ## Larger signatures -/

/-- The same program over a signature with more actions. -/
def inl : Prog S ρ α → Prog (S.sum T) ρ α
  | .pure value => .pure value
  | .stop reason => .stop reason
  | .act action next => .act (Sum.inl action) fun reply => (next reply).inl

def Handler.sum (first : Handler S σ) (second : Handler T σ) : Handler (S.sum T) σ
  | .inl action => first action
  | .inr action => second action

theorem run_inl (first : Handler S σ) (second : Handler T σ) (prog : Prog S ρ α) (state : σ) :
    (prog.inl : Prog (S.sum T) ρ α).run (first.sum second) state = prog.run first state := by
  induction prog generalizing state with
  | pure value => rfl
  | stop reason => rfl
  | act action next ih => exact ih _ _

end Prog

end Mrsh.Data
