import Mrsh.Data.Prog

namespace Mrsh.Data

/-! # Why a program stops -/

variable {S : Signature} {ρ σ α β : Type}

namespace Prog

/-- Where the program stops, the reason is an allowed one. -/
def StopsOnly (allowed : ρ → Prop) : Prog S ρ α → Prop
  | .pure _ => True
  | .stop reason => allowed reason
  | .act _ next => ∀ reply, (next reply).StopsOnly allowed

namespace StopsOnly

variable {allowed : ρ → Prop}

theorem pure (value : α) : StopsOnly allowed (Pure.pure value : Prog S ρ α) := trivial

theorem stop {reason : ρ} (may : allowed reason) : StopsOnly allowed (Prog.stop reason : Prog S ρ α) := may

theorem bind {first : Prog S ρ α} {next : α → Prog S ρ β} (firstStops : first.StopsOnly allowed)
    (nextStops : ∀ value, (next value).StopsOnly allowed) : StopsOnly allowed (first >>= next) := by
  change (first.bind next).StopsOnly allowed
  induction first with
  | pure value => exact nextStops value
  | stop reason => exact firstStops
  | act action rest ih => exact fun reply => ih reply (firstStops reply)

theorem ite {condition : Prop} [Decidable condition] {yes no : Prog S ρ α} (yesStops : yes.StopsOnly allowed)
    (noStops : no.StopsOnly allowed) : StopsOnly allowed (if condition then yes else no) := by
  split
  · exact yesStops
  · exact noStops

theorem mapM {f : α → Prog S ρ β} (stops : ∀ value, (f value).StopsOnly allowed) (values : List α) :
    StopsOnly allowed (values.mapM f) := by
  induction values with
  | nil => exact .pure _
  | cons value values ih =>
      rw [List.mapM_cons]
      exact .bind (stops value) fun _ => .bind ih fun _ => .pure _

theorem run_stopped {prog : Prog S ρ α} {handle : Handler S σ} {reason : ρ} {state after : σ}
    (stops : prog.StopsOnly allowed) (ended : prog.run handle state = .stopped reason after) : allowed reason := by
  induction prog generalizing state with
  | pure value => cases ended
  | stop reason' =>
      cases ended
      exact stops
  | act action next ih => exact ih _ (stops _) ended

end StopsOnly

end Prog

end Mrsh.Data
