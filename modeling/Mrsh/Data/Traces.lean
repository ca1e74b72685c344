namespace Mrsh.Data

/-! # Runs of a system that takes labelled steps

A trace holds the steps of a run, the latest first, each with the state it was taken in.
-/

variable {σ ε : Type}

/-- The system gets from the start to a state through the steps of the trace. -/
inductive Traced (step : σ → ε → Option σ) (start : σ) : List (σ × ε) → σ → Prop where
  | nil : Traced step start [] start
  | cons {trace : List (σ × ε)} {before after : σ} {event : ε} (earlier : Traced step start trace before)
      (steps : step before event = some after) : Traced step start ((before, event) :: trace) after

variable {step : σ → ε → Option σ} {start state : σ} {trace : List (σ × ε)}

/-- What every permitted step preserves, together with the steps before it, holds after
every run of permitted steps. -/
theorem Traced.preserves {permitted : σ × ε → Prop} {invariant : List (σ × ε) → σ → Prop} (initial : invariant [] start)
    (kept : ∀ trace before event after, invariant trace before → permitted (before, event) →
      step before event = some after → invariant ((before, event) :: trace) after)
    (run : Traced step start trace state) (allowed : ∀ taken ∈ trace, permitted taken) : invariant trace state := by
  induction run with
  | nil => exact initial
  | cons earlier steps ih =>
      exact kept _ _ _ _ (ih fun taken member => allowed taken (List.mem_cons_of_mem _ member))
        (allowed _ List.mem_cons_self) steps

theorem Traced.trans {between : σ} {later : List (σ × ε)} (run : Traced step start trace between)
    (further : Traced step between later state) : Traced step start (later ++ trace) state := by
  induction further with
  | nil => exact run
  | cons earlier steps ih => exact .cons ih steps

theorem Traced.single {event : ε} (steps : step start event = some state) :
    Traced step start [(start, event)] state := .cons .nil steps

/-- The run of a list of events. -/
def traceOf (step : σ → ε → Option σ) : List ε → List (σ × ε) × σ → Option (List (σ × ε) × σ)
  | [], reached => some reached
  | event :: events, (trace, before) =>
      (step before event).bind fun after => traceOf step events ((before, event) :: trace, after)

theorem traceOf_traced {events : List ε} {reached ended : List (σ × ε) × σ}
    (earlier : Traced step start reached.1 reached.2)
    (runs : traceOf step events reached = some ended) : Traced step start ended.1 ended.2 := by
  induction events generalizing reached with
  | nil =>
      cases runs
      exact earlier
  | cons event events ih =>
      obtain ⟨after, steps, rest⟩ := Option.bind_eq_some_iff.mp runs
      exact ih (.cons earlier steps) rest

theorem traceOf_any {events : List ε} {check : List (σ × ε) × σ → Bool}
    (found : (traceOf step events ([], start)).any check = true) :
    ∃ trace state, Traced step start trace state ∧ check (trace, state) = true := by
  obtain ⟨⟨trace, state⟩, runs, checked⟩ := (Option.any_eq_true _ _).mp found
  exact ⟨trace, state, traceOf_traced .nil runs, checked⟩

end Mrsh.Data
