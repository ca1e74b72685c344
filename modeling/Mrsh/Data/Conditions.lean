import Mrsh.Data.Prog

namespace Mrsh.Data

/-! # Conditions on the states of a program

Two ways to say what a program does to the state, each with a rule for every way to
build a program. A program respects a relation if it relates the states before and
after every run. It meets a specification if its runs from the states with a
precondition end with the postcondition, or stop with a condition of their own. A
program that respects a relation keeps every condition that is stable under it.
-/

variable {S : Signature} {ρ σ α β : Type} {handle : Prog.Handler S σ}

namespace Prog

/-! ## The steps of larger programs -/

theorem steps_bind (first : Prog S ρ α) (next : α → Prog S ρ β) (state : σ) :
    (first >>= next).steps handle state = first.steps handle state ++
      match first.run handle state with
      | .done value after => (next value).steps handle after
      | .stopped _ _ => [] := by
  change (first.bind next).steps handle state = _
  induction first generalizing state with
  | pure value => rfl
  | stop reason => rfl
  | act action rest ih => exact congrArg (List.cons _) (ih _ _)

theorem mem_steps_bind {first : Prog S ρ α} {next : α → Prog S ρ β} {state : σ} {step : S.Action × σ}
    (member : step ∈ (first >>= next).steps handle state) :
    step ∈ first.steps handle state ∨ ∃ value after, first.run handle state = .done value after ∧
      step ∈ (next value).steps handle after := by
  rw [steps_bind] at member
  rcases List.mem_append.mp member with member | member
  · exact .inl member
  · cases ended : first.run handle state with
    | done value after =>
        rw [ended] at member
        exact .inr ⟨value, after, rfl, member⟩
    | stopped reason after =>
        rw [ended] at member
        cases member

theorem steps_bind_first {first : Prog S ρ α} {next : α → Prog S ρ β} {state : σ} {step : S.Action × σ}
    (member : step ∈ first.steps handle state) : step ∈ (first >>= next).steps handle state := by
  rw [steps_bind]
  exact List.mem_append_left _ member

theorem steps_bind_next {first : Prog S ρ α} {next : α → Prog S ρ β} {state after : σ} {value : α}
    {step : S.Action × σ} (ended : first.run handle state = .done value after)
    (member : step ∈ (next value).steps handle after) : step ∈ (first >>= next).steps handle state := by
  rw [steps_bind, ended]
  exact List.mem_append_right _ member

theorem steps_inl {T : Signature} (first : Handler S σ) (second : Handler T σ) (prog : Prog S ρ α) (state : σ) :
    (prog.inl : Prog (S.sum T) ρ α).steps (first.sum second) state =
      (prog.steps first state).map fun step => (.inl step.1, step.2) := by
  induction prog generalizing state with
  | pure value => rfl
  | stop reason => rfl
  | act action next ih => exact congrArg (List.cons _) (ih _ _)

theorem mem_steps_inl {T : Signature} {first : Handler S σ} {second : Handler T σ} {prog : Prog S ρ α}
    {state : σ} {step : (S.sum T).Action × σ}
    (member : step ∈ (prog.inl : Prog (S.sum T) ρ α).steps (first.sum second) state) :
    ∃ action, step.1 = .inl action := by
  rw [steps_inl] at member
  obtain ⟨own, _, rfl⟩ := List.mem_map.mp member
  exact ⟨own.1, rfl⟩

theorem inl_bind {T : Signature} (first : Prog S ρ α) (next : α → Prog S ρ β) :
    ((first >>= next).inl : Prog (S.sum T) ρ β) = first.inl >>= fun value => (next value).inl := by
  change (first.bind next).inl = _
  induction first with
  | pure value => rfl
  | stop reason => rfl
  | act action rest ih => exact congrArg (Prog.act (S := S.sum T) (.inl action)) (funext fun reply => ih reply)

/-! ## Parts of a run -/

/-- The run of a program comes to the part, in the state that is reached. -/
inductive Arrives {γ : Type} (handle : Handler S σ) (part : Prog S ρ γ) : Prog S ρ α → σ → σ → Prop where
  | here (next : γ → Prog S ρ α) (state : σ) : Arrives handle part (part >>= next) state state
  | later {action : S.Action} {next : S.Reply action → Prog S ρ α} {state reached : σ}
      (rest : Arrives handle part (next (handle action state).1) (handle action state).2 reached) :
      Arrives handle part (.act action next) state reached

namespace Arrives

variable {γ : Type} {part : Prog S ρ γ} {prog first : Prog S ρ α} {next : α → Prog S ρ β} {state reached : σ}

theorem whole (prog : Prog S ρ α) (state : σ) : Arrives handle prog prog state state := by
  have arrives : Arrives handle prog (prog >>= Pure.pure) state state := .here Pure.pure state
  rwa [bind_pure] at arrives

theorem ofFirst (arrives : Arrives handle part first state reached) :
    Arrives handle part (first >>= next) state reached := by
  induction arrives with
  | here after state =>
      rw [LawfulMonad.bind_assoc]
      exact .here _ _
  | later _ ih => exact .later ih

theorem ofNext {value : α} {after : σ} (ended : first.run handle state = .done value after)
    (arrives : Arrives handle part (next value) after reached) :
    Arrives handle part (first >>= next) state reached := by
  change Arrives handle part (Prog.bind first next) state reached
  induction first generalizing state with
  | pure value =>
      cases ended
      exact arrives
  | stop reason => cases ended
  | act action rest ih => exact .later (ih _ ended)

theorem mem_steps {step : S.Action × σ} (arrives : Arrives handle part prog state reached)
    (member : step ∈ part.steps handle reached) : step ∈ prog.steps handle state := by
  induction arrives with
  | here after state => exact steps_bind_first member
  | later _ ih => exact List.mem_cons_of_mem _ (ih member)

end Arrives

/-! ## Programs over some of the actions -/

/-- Every action that the program can come to is allowed. -/
def Only (allowed : S.Action → Prop) : Prog S ρ α → Prop
  | .pure _ | .stop _ => True
  | .act action next => allowed action ∧ ∀ reply, (next reply).Only allowed

namespace Only

variable {allowed : S.Action → Prop}

theorem pure (value : α) : Only allowed (Pure.pure value : Prog S ρ α) := trivial

theorem stop (reason : ρ) : Only allowed (Prog.stop reason : Prog S ρ α) := trivial

theorem bind {first : Prog S ρ α} {next : α → Prog S ρ β} (firstOnly : first.Only allowed)
    (nextOnly : ∀ value, (next value).Only allowed) : Only allowed (first >>= next) := by
  change (first.bind next).Only allowed
  induction first with
  | pure value => exact nextOnly value
  | stop reason => trivial
  | act action rest ih => exact ⟨firstOnly.1, fun reply => ih reply (firstOnly.2 reply)⟩

theorem ite {condition : Prop} [Decidable condition] {yes no : Prog S ρ α} (yesOnly : yes.Only allowed)
    (noOnly : no.Only allowed) : Only allowed (if condition then yes else no) := by
  split
  · exact yesOnly
  · exact noOnly

theorem mem_steps {prog : Prog S ρ α} {state : σ} {step : S.Action × σ} (only : prog.Only allowed)
    (member : step ∈ prog.steps handle state) : allowed step.1 := by
  induction prog generalizing state with
  | pure value => cases member
  | stop reason => cases member
  | act action next ih =>
      rcases List.mem_cons.mp member with rfl | member
      · exact only.1
      · exact ih _ (only.2 _) member

end Only

/-! ## Relations -/

def Respects (handle : Handler S σ) (relation : σ → σ → Prop) (prog : Prog S ρ α) : Prop :=
  Run.Respects relation (prog.run handle)

namespace Respects

variable {relation : σ → σ → Prop}

theorem pure [Std.Refl relation] (value : α) :
    Respects handle relation (Pure.pure value : Prog S ρ α) := Run.Respects.pure value

theorem stop [Std.Refl relation] (reason : ρ) :
    Respects handle relation (Prog.stop reason : Prog S ρ α) := Run.Respects.stop reason

theorem act [IsTrans σ relation] {action : S.Action} {next : S.Reply action → Prog S ρ α}
    (handled : ∀ before, relation before (handle action before).2)
    (respects : ∀ reply, Respects handle relation (next reply)) :
    Respects handle relation (Prog.act action next) :=
  fun before => IsTrans.trans _ _ _ (handled before) (respects _ _)

theorem bind [IsTrans σ relation] {first : Prog S ρ α} {next : α → Prog S ρ β}
    (firstRespects : Respects handle relation first)
    (nextRespects : ∀ value, Respects handle relation (next value)) :
    Respects handle relation (first >>= next) := by
  intro before
  rw [run_bind]
  have sequenced : Run.Respects relation (first.run handle >>= fun value => (next value).run handle) :=
    Run.Respects.bind firstRespects nextRespects
  exact sequenced before

theorem ite {condition : Prop} [Decidable condition] {yes no : Prog S ρ α}
    (yesRespects : Respects handle relation yes) (noRespects : Respects handle relation no) :
    Respects handle relation (if condition then yes else no) := by
  split
  · exact yesRespects
  · exact noRespects

theorem only [Std.Refl relation] [IsTrans σ relation] {allowed : S.Action → Prop}
    (handled : ∀ action, allowed action → ∀ before, relation before (handle action before).2) {prog : Prog S ρ α}
    (made : prog.Only allowed) : Respects handle relation prog := by
  induction prog with
  | pure value => exact .pure value
  | stop reason => exact .stop reason
  | act action next ih => exact .act (handled action made.1) fun reply => ih reply (made.2 reply)

end Respects

/-! ## Specifications -/

def Meets (handle : Handler S σ) (before : σ → Prop) (prog : Prog S ρ α) (after : α → σ → Prop)
    (stopped : σ → Prop) : Prop :=
  ∀ state, before state →
    match prog.run handle state with
    | .done value state => after value state
    | .stopped _ state => stopped state

namespace Meets

variable {before : σ → Prop} {after : α → σ → Prop} {stopped : σ → Prop} {prog : Prog S ρ α}

theorem pure {value : α} (holds : ∀ state, before state → after value state) :
    Meets handle before (Pure.pure value : Prog S ρ α) after stopped := holds

theorem bind {first : Prog S ρ α} {next : α → Prog S ρ β} {afterNext : β → σ → Prop}
    (firstMeets : Meets handle before first after stopped)
    (nextMeets : ∀ value, Meets handle (after value) (next value) afterNext stopped) :
    Meets handle before (first >>= next) afterNext stopped := by
  intro state holds
  rw [run_bind]
  have reached := firstMeets state holds
  cases ended : first.run handle state with
  | done value between =>
      rw [ended] at reached
      exact nextMeets value between reached
  | stopped reason between =>
      rw [ended] at reached
      exact reached

theorem ite {condition : Prop} [Decidable condition] {yes no : Prog S ρ α}
    (yesMeets : condition → Meets handle before yes after stopped)
    (noMeets : ¬ condition → Meets handle before no after stopped) :
    Meets handle before (if condition then yes else no) after stopped := by
  split
  · exact yesMeets ‹_›
  · exact noMeets ‹_›

theorem strengthen {beforeMore : σ → Prop} (meets : Meets handle before prog after stopped)
    (implied : ∀ state, beforeMore state → before state) :
    Meets handle beforeMore prog after stopped :=
  fun state holds => meets state (implied state holds)

theorem weaken {afterLess : α → σ → Prop} (meets : Meets handle before prog after stopped)
    (implied : ∀ value state, after value state → afterLess value state) :
    Meets handle before prog afterLess stopped := by
  intro state holds
  have reached := meets state holds
  cases ended : prog.run handle state with
  | done value between =>
      rw [ended] at reached
      exact implied value between reached
  | stopped reason between =>
      rw [ended] at reached
      exact reached

/-- A stable condition stays true, whether the program ends or stops. -/
theorem frame {relation : σ → σ → Prop} (respects : Respects handle relation prog)
    (stable : ∀ first second, relation first second → before first → before second)
    (implied : ∀ state, before state → stopped state) :
    Meets handle before prog (fun _ => before) stopped := by
  intro state holds
  have reached := stable _ _ (respects state) holds
  cases ended : prog.run handle state with
  | done value between =>
      rw [ended] at reached
      exact reached
  | stopped reason between =>
      rw [ended] at reached
      exact implied between reached

theorem done {state ended : σ} {value : α} (meets : Meets handle before prog after stopped)
    (holds : before state) (ends : prog.run handle state = .done value ended) : after value ended := by
  have reached := meets state holds
  rw [ends] at reached
  exact reached

theorem state {last : σ → Prop} {start : σ} (meets : Meets handle before prog (fun _ => last) last)
    (holds : before start) : last (prog.run handle start).state := by
  have reached := meets start holds
  cases ended : prog.run handle start with
  | done value between =>
      rw [ended] at reached
      exact reached
  | stopped reason between =>
      rw [ended] at reached
      exact reached

theorem of_state {last : σ → Prop} (holds : ∀ state, before state → last (prog.run handle state).state) :
    Meets handle before prog (fun _ => last) last := by
  intro state met
  have reached := holds state met
  cases ended : prog.run handle state with
  | done value between =>
      rw [ended] at reached
      exact reached
  | stopped reason between =>
      rw [ended] at reached
      exact reached

end Meets

end Prog

end Mrsh.Data
