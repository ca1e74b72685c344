import Mathlib.Order.Defs.Unbundled

namespace Mrsh.Data

/-! # Computations over an explicit state

A run either finishes with a value or stops early, for one of the reasons `ρ`:
the fuel of a recursive definition is exhausted, the modelled program aborts, a
process exits. The state of the moment is kept in both cases, so that
properties of unfinished runs can be stated too.
-/

inductive Outcome (ρ σ α : Type) where
  | done (value : α) (state : σ)
  | stopped (reason : ρ) (state : σ)
deriving Repr, DecidableEq

variable {ρ σ α β γ : Type}

namespace Outcome

def state : Outcome ρ σ α → σ
  | done _ state => state
  | stopped _ state => state

def reason? : Outcome ρ σ α → Option ρ
  | done _ _ => none
  | stopped reason _ => some reason

def value? : Outcome ρ σ α → Option α
  | done value _ => some value
  | stopped _ _ => none

def andThen (outcome : Outcome ρ σ α) (next : α → σ → Outcome ρ σ β) : Outcome ρ σ β :=
  match outcome with
  | done value state => next value state
  | stopped reason state => stopped reason state

@[simp] theorem state_done (value : α) (state : σ) : (done value state : Outcome ρ σ α).state = state := rfl

@[simp] theorem state_stopped (reason : ρ) (state : σ) :
    (stopped reason state : Outcome ρ σ α).state = state := rfl

@[simp] theorem value?_done (value : α) (state : σ) :
    (done value state : Outcome ρ σ α).value? = some value := rfl

@[simp] theorem value?_stopped (reason : ρ) (state : σ) :
    (stopped reason state : Outcome ρ σ α).value? = none := rfl

@[simp] theorem andThen_done (value : α) (state : σ) (next : α → σ → Outcome ρ σ β) :
    (done value state).andThen next = next value state := rfl

@[simp] theorem andThen_stopped (reason : ρ) (state : σ) (next : α → σ → Outcome ρ σ β) :
    (stopped reason state).andThen next = stopped reason state := rfl

theorem andThen_eq_done {outcome : Outcome ρ σ α} {next : α → σ → Outcome ρ σ β} {value : β} {after : σ} :
    outcome.andThen next = done value after ↔
      ∃ middle between, outcome = done middle between ∧ next middle between = done value after := by
  cases outcome with
  | done middle between =>
      refine ⟨fun ended => ⟨middle, between, rfl, ended⟩, ?_⟩
      rintro ⟨_, _, same, ended⟩
      cases same
      exact ended
  | stopped reason between => simp

theorem andThen_eq_stopped {outcome : Outcome ρ σ α} {next : α → σ → Outcome ρ σ β} {reason : ρ} {after : σ} :
    outcome.andThen next = stopped reason after ↔
      outcome = stopped reason after ∨
        ∃ middle between, outcome = done middle between ∧ next middle between = stopped reason after := by
  cases outcome with
  | done middle between =>
      simp only [andThen_done, reduceCtorEq, done.injEq, false_or]
      refine ⟨fun ended => ⟨middle, between, ⟨rfl, rfl⟩, ended⟩, ?_⟩
      rintro ⟨_, _, ⟨rfl, rfl⟩, ended⟩
      exact ended
  | stopped found between => simp

theorem eq_done_of_value? {outcome : Outcome ρ σ α} {value : α} (ended : outcome.value? = some value) :
    outcome = done value outcome.state := by
  cases outcome with
  | done found state =>
      obtain rfl := Option.some.inj ended
      rfl
  | stopped reason state => cases ended

theorem eq_done_some_of_value? {outcome : Outcome ρ σ (Option α)} {value : α}
    (ended : outcome.value?.join = some value) : outcome = done (some value) outcome.state :=
  eq_done_of_value? (Option.join_eq_some_iff.mp ended)

theorem eq_stopped_of_reason? {outcome : Outcome ρ σ α} {reason : ρ} (ended : outcome.reason? = some reason) :
    outcome = stopped reason outcome.state := by
  cases outcome with
  | done value state => cases ended
  | stopped found state =>
      obtain rfl := Option.some.inj ended
      rfl

theorem andThen_assoc (outcome : Outcome ρ σ α) (second : α → σ → Outcome ρ σ β)
    (third : β → σ → Outcome ρ σ γ) :
    (outcome.andThen second).andThen third =
      outcome.andThen fun value state => (second value state).andThen third := by
  cases outcome <;> rfl

theorem andThen_pure (outcome : Outcome ρ σ α) : outcome.andThen done = outcome := by
  cases outcome <;> rfl

end Outcome

def Run (ρ σ α : Type) := σ → Outcome ρ σ α

namespace Run

protected def pure (value : α) : Run ρ σ α := fun state => .done value state

protected def bind (first : Run ρ σ α) (next : α → Run ρ σ β) : Run ρ σ β :=
  fun state => (first state).andThen next

instance : Monad (Run ρ σ) where
  pure := Run.pure
  bind := Run.bind

def get : Run ρ σ σ := fun state => .done state state

def gets (read : σ → α) : Run ρ σ α := fun state => .done (read state) state

def modify (change : σ → σ) : Run ρ σ Unit := fun state => .done () (change state)

def stop (reason : ρ) : Run ρ σ α := fun state => .stopped reason state

@[simp] theorem pure_apply (value : α) (state : σ) :
    (pure value : Run ρ σ α) state = .done value state := rfl

@[simp] theorem bind_apply (first : Run ρ σ α) (next : α → Run ρ σ β) (state : σ) :
    (first >>= next) state = (first state).andThen fun value after => next value after := rfl

@[simp] theorem map_apply (change : α → β) (first : Run ρ σ α) (state : σ) :
    (change <$> first) state =
      (first state).andThen fun value after => .done (change value) after := rfl

@[simp] theorem get_apply (state : σ) : (get : Run ρ σ σ) state = .done state state := rfl

@[simp] theorem gets_apply (read : σ → α) (state : σ) :
    (gets read : Run ρ σ α) state = .done (read state) state := rfl

@[simp] theorem modify_apply (change : σ → σ) (state : σ) :
    (modify change : Run ρ σ Unit) state = .done () (change state) := rfl

@[simp] theorem stop_apply (reason : ρ) (state : σ) :
    (stop reason : Run ρ σ α) state = .stopped reason state := rfl

@[simp] theorem ite_apply {condition : Prop} [Decidable condition] (yes no : Run ρ σ α) (state : σ) :
    (if condition then yes else no) state = if condition then yes state else no state := by
  split <;> rfl

@[ext] theorem ext {first second : Run ρ σ α} (same : ∀ state, first state = second state) :
    first = second := funext same

instance : LawfulMonad (Run ρ σ) := LawfulMonad.mk' _
  (fun first => ext fun state => (first state).andThen_pure)
  (fun _ _ => rfl)
  (fun first _ _ => ext fun state => (first state).andThen_assoc _ _)

theorem gets_bind (read : σ → α) (next : α → Run ρ σ β) (state : σ) :
    (gets read >>= next : Run ρ σ β) state = next (read state) state := rfl

theorem bind_of_done {first : Run ρ σ α} {next : α → Run ρ σ β} {before between : σ} {value : α}
    (ended : first before = .done value between) :
    (first >>= next) before = next value between := by
  rw [bind_apply, ended]
  rfl

theorem bind_done {first : Run ρ σ α} {next : α → Run ρ σ β} {before after : σ} {value : β} :
    (first >>= next) before = .done value after ↔
      ∃ middle between, first before = .done middle between ∧ next middle between = .done value after :=
  Outcome.andThen_eq_done

/-! ## What a run does to the state

`Respects` relates the states before and after a run, however the run ends. It
is used with preorders, whose two laws are what the rules for `pure` and for
sequencing need.
-/

def Respects (relation : σ → σ → Prop) (run : Run ρ σ α) : Prop :=
  ∀ before, relation before (run before).state

namespace Respects

variable {relation : σ → σ → Prop} [Std.Refl relation]

theorem pure (value : α) : Respects relation (pure value : Run ρ σ α) :=
  fun before => Std.Refl.refl before

theorem gets (read : σ → α) : Respects relation (gets read : Run ρ σ α) :=
  fun before => Std.Refl.refl before

theorem stop (reason : ρ) : Respects relation (stop reason : Run ρ σ α) :=
  fun before => Std.Refl.refl before

omit [Std.Refl relation] in
theorem modify {change : σ → σ} (related : ∀ before, relation before (change before)) :
    Respects relation (modify change : Run ρ σ Unit) := related

omit [Std.Refl relation] in
theorem bind [IsTrans σ relation] {first : Run ρ σ α} {next : α → Run ρ σ β}
    (firstRespects : Respects relation first)
    (nextRespects : ∀ value, Respects relation (next value)) :
    Respects relation (first >>= next) := by
  intro before
  rw [bind_apply]
  have reached := firstRespects before
  cases ended : first before with
  | done value between =>
      rw [ended] at reached
      exact IsTrans.trans _ _ _ reached (nextRespects value between)
  | stopped reason between =>
      rw [ended] at reached
      exact reached

omit [Std.Refl relation] in
theorem ite {condition : Prop} [Decidable condition] {yes no : Run ρ σ α}
    (yesRespects : condition → Respects relation yes)
    (noRespects : ¬ condition → Respects relation no) :
    Respects relation (if condition then yes else no) := by
  split
  · exact yesRespects ‹_›
  · exact noRespects ‹_›

omit [Std.Refl relation] in
theorem done {run : Run ρ σ α} (respects : Respects relation run) {before after : σ} {value : α}
    (ended : run before = .done value after) : relation before after := by
  have reached := respects before
  rw [ended] at reached
  exact reached

end Respects

/-- `Keeps` relates the states around the runs that end with a value. -/
def Keeps (relation : σ → σ → Prop) (run : Run ρ σ α) : Prop :=
  ∀ ⦃before : σ⦄ ⦃value : α⦄ ⦃after : σ⦄, run before = .done value after → relation before after

theorem Respects.keeps {relation : σ → σ → Prop} {run : Run ρ σ α} (respects : Respects relation run) :
    Keeps relation run := fun _ _ _ ended => respects.done ended

namespace Keeps

variable {relation : σ → σ → Prop}

theorem modify {change : σ → σ} (related : ∀ before, relation before (change before)) :
    Keeps relation (modify change : Run ρ σ Unit) := (Respects.modify related).keeps

theorem bind [IsTrans σ relation] {first : Run ρ σ α} {next : α → Run ρ σ β} (firstKeeps : Keeps relation first)
    (nextKeeps : ∀ value, Keeps relation (next value)) : Keeps relation (first >>= next) := by
  intro before value after ended
  obtain ⟨middle, between, reached, ended⟩ := bind_done.mp ended
  exact IsTrans.trans _ _ _ (firstKeeps reached) (nextKeeps middle ended)

theorem ite {condition : Prop} [Decidable condition] {yes no : Run ρ σ α} (yesKeeps : condition → Keeps relation yes)
    (noKeeps : ¬ condition → Keeps relation no) : Keeps relation (if condition then yes else no) := by
  split
  · exact yesKeeps ‹_›
  · exact noKeeps ‹_›

end Keeps

/-! ## What a run returns -/

/-- Every value that the run can end with is good. -/
def Returns (good : α → Prop) (run : Run ρ σ α) : Prop :=
  ∀ before value after, run before = .done value after → good value

namespace Returns

variable {good : α → Prop}

theorem pure {value : α} (isGood : good value) : Returns good (pure value : Run ρ σ α) := by
  intro before _ after ended
  cases ended
  exact isGood

theorem stop (reason : ρ) : Returns good (stop reason : Run ρ σ α) := by
  intro before value after ended
  cases ended

theorem bind {first : Run ρ σ β} {next : β → Run ρ σ α} (nextReturns : ∀ value, Returns good (next value)) :
    Returns good (first >>= next) := by
  intro before value after ended
  obtain ⟨middle, between, _, ended⟩ := bind_done.mp ended
  exact nextReturns middle between value after ended

theorem ite {condition : Prop} [Decidable condition] {yes no : Run ρ σ α}
    (yesReturns : condition → Returns good yes) (noReturns : ¬ condition → Returns good no) :
    Returns good (if condition then yes else no) := by
  split
  · exact yesReturns ‹_›
  · exact noReturns ‹_›

end Returns

end Run

end Mrsh.Data
