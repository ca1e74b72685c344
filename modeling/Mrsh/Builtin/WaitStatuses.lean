import Mrsh.Builtin.Jobs
import Mrsh.Shell.ProcessStatus
import Mrsh.Shell.SystemPart

namespace Mrsh

open Mrsh.Data

/-! # The status that wait returns

A child that ends is reaped once, by `wait` or before. `wait` decodes the status
of a child that it reaps itself, and returns what the table of processes has for
any other.
-/

/-! ## The ends of children -/

inductive ChildEnd where
  | exited (status : Fin 256)
  | killed (sig : Nat) (isSignal : 0 < sig ∧ sig < 127) (core : Bool)
deriving DecidableEq

namespace ChildEnd

/-- The status of `waitpid`. -/
def raw : ChildEnd → Nat
  | .exited status => 256 * status
  | .killed sig _ core => sig + if core then 128 else 0

/-- The status of the child for the shell. -/
def status : ChildEnd → Int
  | .exited status => (status : Nat)
  | .killed _ _ _ => 129

/-- The status of `waitpid` is that for the shell. -/
def SameRaw : ChildEnd → Prop
  | .exited status => status = 0
  | .killed sig _ core => sig = 1 ∧ core = true

instance : DecidablePred SameRaw
  | .exited status => inferInstanceAs (Decidable (status = 0))
  | .killed sig _ core => inferInstanceAs (Decidable (sig = 1 ∧ core = true))

theorem raw_eq_status_iff (ending : ChildEnd) : (ending.raw : Int) = ending.status ↔ ending.SameRaw := by
  cases ending with
  | exited status =>
      rw [raw, ChildEnd.status, SameRaw, Fin.ext_iff]
      have zero : ((0 : Fin 256) : Nat) = 0 := rfl
      omega
  | killed sig isSignal core =>
      rw [raw, ChildEnd.status, SameRaw]
      cases core with
      | false =>
          simp only [Bool.false_eq_true, if_false, and_false, iff_false]
          omega
      | true =>
          simp only [if_true, and_true]
          omega

theorem raw_ends (ending : ChildEnd) : (wifexited ending.raw || wifsignaled ending.raw) = true := by
  cases ending with
  | exited status =>
      have exits : wtermsig (256 * status) = 0 := by
        rw [wtermsig]
        omega
      simp [raw, wifexited, exits]
  | killed sig isSignal core =>
      have signal : wtermsig (sig + if core then 128 else 0) = sig := by
        rw [wtermsig]
        split <;> omega
      simp [raw, wifsignaled, signal, isSignal]

theorem raw_decodes (ending : ChildEnd) :
    (if wifexited ending.raw then (wexitstatus ending.raw : Int) else 129) = ending.status := by
  cases ending with
  | exited status =>
      have exits : wtermsig (256 * status) = 0 := by
        rw [wtermsig]
        omega
      have code : wexitstatus (256 * status) = status := by
        rw [wexitstatus]
        omega
      simp [raw, wifexited, exits, code, ChildEnd.status]
  | killed sig isSignal core =>
      have signal : wtermsig (sig + if core then 128 else 0) = sig := by
        rw [wtermsig]
        split <;> omega
      have notZero : sig ≠ 0 := by omega
      simp [raw, wifexited, signal, notZero, ChildEnd.status]

end ChildEnd

section

variable {World : Type} [System World]

/-- What `waitpid` does with the children that are not reaped, which it waits for
until they end. -/
structure ReapLaws (World : Type) [System World] (unreaped : World → Int → Option ChildEnd) : Prop where
  reaps : ∀ pid world ending, 0 < pid → unreaped world pid = some ending →
    ∃ after, System.waitpid pid false false world = (.ok (pid, ending.raw), after) ∧
      unreaped after = Function.update (unreaped world) pid none
  noChild : ∀ pid world, 0 < pid → unreaped world pid = none →
    ∃ after, System.waitpid pid false false world = (.error .echild, after) ∧ unreaped after = unreaped world

variable {unreaped : World → Int → Option ChildEnd} {state : Shell World}

/-! ## The handles -/

/-- The text of a process id. -/
structure PidOperand (arg : Str) (pid : Int) : Prop where
  noJob : arg.head? ≠ some '%'
  nonempty : arg.isEmpty = false
  read : (strtol 10 arg).rest.isEmpty = true
  value : toInt32 (strtol 10 arg).value = pid
  positive : 0 < pid

/-- The status that is known of a process before `wait` waits for it. -/
def knownStatus (processes : List Process) (pid : Int) : Int :=
  match processes.find? (·.pid == pid) with
  | none => 127
  | some process => if process.terminated then process.stat else -1

def handleOf (processes : List Process) (pid : Int) : WaitHandle := ⟨pid, knownStatus processes pid⟩

theorem waitHandle_run {arg : Str} {pid : Int} (operand : PidOperand arg pid) (state : Shell World) :
    Leaf.run (waitHandle arg) state = .done (some (handleOf state.processes pid)) state := by
  have noJob : (arg.head? == some '%') = false := by simpa using operand.noJob
  have invalid : (!(strtol 10 arg).rest.isEmpty || arg.isEmpty) = false := by
    rw [operand.read, operand.nonempty]
    rfl
  rw [waitHandle, noJob, if_neg Bool.false_ne_true]
  dsimp only
  rw [invalid, if_neg Bool.false_ne_true, operand.value, if_neg (by have := operand.positive; omega),
    Leaf.run_gets_bind, handleOf, knownStatus]
  cases state.processes.find? (·.pid == pid) with
  | none => rfl
  | some process => rfl

theorem waitHandles_run {args : List Str} {pids : List Int} (operands : List.Forall₂ PidOperand args pids)
    (state : Shell World) :
    Leaf.run (waitHandles args) state = .done (some (pids.map (handleOf state.processes))) state := by
  induction operands with
  | nil => rfl
  | cons operand operands ih =>
      rw [waitHandles, Leaf.run_bind, waitHandle_run operand, Outcome.andThen_done]
      dsimp only
      rw [Leaf.run_bind_of_done ih]
      rfl

omit [System World] in
theorem pidOperands_positive {args : List Str} {pids : List Int} (operands : List.Forall₂ PidOperand args pids) :
    ∀ pid ∈ pids, 0 < pid := by
  induction operands with
  | nil => simp
  | cons operand _ ih => exact List.forall_mem_cons.mpr ⟨operand.positive, ih⟩

/-! ## The waits -/

/-- The last status after all waits. -/
def lastStatusOf : (Int → Option ChildEnd) → List WaitHandle → Int → Int
  | _, [], last => last
  | unreaped, handle :: handles, _ =>
      match unreaped handle.pid with
      | some ending => lastStatusOf (Function.update unreaped handle.pid none) handles ending.status
      | none => lastStatusOf unreaped handles handle.status

omit [System World] in
theorem updateProcess_reaped (pid : Int) (ending : ChildEnd) (state : Shell World) :
    ∃ after, Leaf.run (updateProcess pid ending.raw) state = .done () after ∧ after.world = state.world := by
  rw [updateProcess, Leaf.run_gets_bind]
  cases state.processes.find? (·.pid == pid) with
  | none => exact ⟨state, rfl, rfl⟩
  | some process =>
      dsimp only
      rw [if_pos ending.raw_ends]
      exact ⟨_, rfl, rfl⟩

theorem waitForHandles_run (laws : ReapLaws World unreaped) {handles : List WaitHandle}
    (positive : ∀ handle ∈ handles, 0 < handle.pid) (last : Int) (state : Shell World) :
    ∃ after, Leaf.run (waitForHandles handles last) state =
      .done (some (lastStatusOf (unreaped state.world) handles last)) after := by
  induction handles generalizing last state with
  | nil => exact ⟨state, rfl⟩
  | cons handle handles ih =>
      have first := positive handle List.mem_cons_self
      have rest : ∀ other ∈ handles, 0 < other.pid := fun other member => positive other (List.mem_cons_of_mem _ member)
      rw [waitForHandles, Leaf.run_call_bind, lastStatusOf]
      cases waiting : unreaped state.world handle.pid with
      | none =>
          obtain ⟨world, waited, kept⟩ := laws.noChild handle.pid state.world first waiting
          rw [waited]
          dsimp only
          rw [← kept]
          exact ih rest _ _
      | some ending =>
          obtain ⟨world, waited, reaped⟩ := laws.reaps handle.pid state.world ending first waiting
          obtain ⟨after, updated, sameWorld⟩ := updateProcess_reaped handle.pid ending { state with world }
          rw [waited]
          dsimp only
          rw [Leaf.run_bind_of_done updated, ending.raw_decodes, ← reaped]
          have sameUnreaped : unreaped world = unreaped after.world := by rw [sameWorld]
          rw [sameUnreaped]
          exact ih rest _ _

/-- The last handle counts: what it waits for, unless another one has reaped it before. -/
theorem lastStatusOf_concat (handles : List WaitHandle) (handle : WaitHandle) (unreaped : Int → Option ChildEnd)
    (last : Int) :
    lastStatusOf unreaped (handles ++ [handle]) last =
      match if handle.pid ∈ handles.map (·.pid) then none else unreaped handle.pid with
      | some ending => ending.status
      | none => handle.status := by
  induction handles generalizing unreaped last with
  | nil =>
      rw [List.nil_append, lastStatusOf, List.map_nil, if_neg List.not_mem_nil]
      cases unreaped handle.pid <;> rfl
  | cons first handles ih =>
      rw [List.cons_append, lastStatusOf, List.map_cons]
      by_cases same : handle.pid = first.pid
      · rw [if_pos (same ▸ List.mem_cons_self)]
        cases waiting : unreaped first.pid with
        | none =>
            dsimp only
            rw [ih, same, waiting, ite_self]
        | some ending =>
            dsimp only
            rw [ih, same, Function.update_self, ite_self]
      · have listed : handle.pid ∈ first.pid :: handles.map (·.pid) ↔ handle.pid ∈ handles.map (·.pid) := by
          simp [same]
        simp only [listed]
        cases waiting : unreaped first.pid with
        | none =>
            dsimp only
            rw [ih]
        | some ending =>
            dsimp only
            rw [ih, Function.update_of_ne same]

/-! ## The children of the shell -/

/-- Where a child is on its way, as the shell sees it. -/
inductive ChildStage where
  /-- The child has not been reaped, whether it has ended or not. -/
  | unreaped
  /-- The end of the child is in its entry. -/
  | recorded
  /-- The entry has been removed with the job. -/
  | forgotten
deriving DecidableEq

inductive ChildAt (unreaped : World → Int → Option ChildEnd) (pid : Int) (ending : ChildEnd) (state : Shell World) :
    ChildStage → Prop where
  | unreaped {process : Process} (waits : unreaped state.world pid = some ending)
      (found : state.processes.find? (·.pid == pid) = some process) (running : process.terminated = false) :
      ChildAt unreaped pid ending state .unreaped
  | recorded {process : Process} (reaped : unreaped state.world pid = none)
      (found : state.processes.find? (·.pid == pid) = some process) (ended : process.terminated = true)
      (stat : process.stat = ending.raw) : ChildAt unreaped pid ending state .recorded
  | forgotten (reaped : unreaped state.world pid = none) (missing : state.processes.find? (·.pid == pid) = none) :
      ChildAt unreaped pid ending state .forgotten

/-- Whether `wait` returns the status of the child with these operands before it. -/
def WaitKnows (earlier : List Int) (pid : Int) (ending : ChildEnd) : ChildStage → Prop
  | .unreaped => pid ∉ earlier
  | .recorded => ending.SameRaw
  | .forgotten => ending.status = 127

theorem ChildEnd.status_ne (ending : ChildEnd) : (-1 : Int) ≠ ending.status := by
  cases ending with
  | exited status =>
      rw [ChildEnd.status]
      omega
  | killed sig isSignal core => exact (by decide : (-1 : Int) ≠ 129)

omit [System World] in
theorem ChildAt.lastStatus {pid : Int} {ending : ChildEnd} {stage : ChildStage}
    (child : ChildAt unreaped pid ending state stage) (earlier : List Int) (last : Int) :
    lastStatusOf (unreaped state.world) ((earlier ++ [pid]).map (handleOf state.processes)) last = ending.status ↔
      WaitKnows earlier pid ending stage := by
  have pids : (earlier.map (handleOf state.processes)).map (·.pid) = earlier := by
    rw [List.map_map]
    exact List.map_id' earlier
  rw [List.map_append, List.map_singleton, lastStatusOf_concat, pids, handleOf]
  dsimp only
  rw [knownStatus]
  cases child with
  | unreaped waits found running =>
      rw [WaitKnows, waits, found]
      by_cases listed : pid ∈ earlier
      · simp [running, listed, ending.status_ne]
      · simp [listed]
  | recorded reaped found ended stat =>
      rw [WaitKnows, reaped, found, ite_self, ← ending.raw_eq_status_iff]
      simp [ended, stat]
  | forgotten reaped missing =>
      rw [WaitKnows, reaped, missing, ite_self]
      exact eq_comm

omit [System World] in
/-- Whoever reaps a child records its end. -/
theorem ChildAt.record {pid : Int} {ending : ChildEnd} {after : Shell World}
    (child : ChildAt unreaped pid ending state .unreaped) {world : World} (reaped : unreaped world pid = none)
    (updated : Leaf.run (updateProcess pid ending.raw) { state with world } = .done () after) :
    ChildAt unreaped pid ending after .recorded := by
  obtain ⟨last, updates, sameWorld⟩ := updateProcess_reaped pid ending { state with world }
  obtain ⟨-, rfl⟩ := Outcome.done.inj (updated.symm.trans updates)
  cases child with
  | @unreaped process waits found running =>
      have processes := updateProcess_done updated
      dsimp only at processes
      rw [found] at processes
      have ends : terminates ending.raw = true := ending.raw_ends
      have recordedEntry : process.record (.status ending.raw) =
          { process with terminated := true, stat := ending.raw } := by
        simp [Process.record, ends]
      have samePid :
          ((fun proc : Process => proc.pid == pid) ∘ fun proc =>
            if proc.serial = process.serial then proc.record (.status ending.raw) else proc) =
            fun proc => proc.pid == pid := by
        funext proc
        rw [Function.comp_apply]
        split
        · simp [Process.record, ends]
        · rfl
      have foundEntry : after.processes.find? (·.pid == pid) = some (process.record (.status ending.raw)) := by
        rw [processes, List.find?_map, samePid, found, Option.map_some, if_pos rfl]
      exact .recorded (sameWorld ▸ reaped) foundEntry (by rw [recordedEntry]) (by rw [recordedEntry])

/-- `wait` returns the status of a child that it reaps itself if no operand
before names it too. Once the end is recorded it returns the raw status, which is
that of the child only for 0 and for a hangup with a core dump. -/
theorem builtinWait_status_iff (laws : ReapLaws World unreaped) {name operand : Str} {operands : List Str} {pid : Int}
    {pids : List Int} (before : List.Forall₂ PidOperand operands pids) (last : PidOperand operand pid)
    {ending : ChildEnd} {stage : ChildStage} (child : ChildAt unreaped pid ending state stage) :
    (∃ after, Leaf.run (builtinWait (name :: (operands ++ [operand]))) state = .done ending.status after) ↔
      WaitKnows pids pid ending stage := by
  have parsed : List.Forall₂ PidOperand (operands ++ [operand]) (pids ++ [pid]) :=
    List.rel_append before (.cons last .nil)
  have positive : ∀ handle ∈ (pids ++ [pid]).map (handleOf state.processes), 0 < handle.pid := by
    intro handle member
    obtain ⟨other, isPid, rfl⟩ := List.mem_map.mp member
    exact pidOperands_positive parsed other isPid
  obtain ⟨after, waited⟩ := waitForHandles_run laws positive 0 state
  have run : Leaf.run (builtinWait (name :: (operands ++ [operand]))) state =
      .done (lastStatusOf (unreaped state.world) ((pids ++ [pid]).map (handleOf state.processes)) 0) after := by
    have some : operands ++ [operand] ≠ [] := by simp
    rw [builtinWait, List.tail_cons]
    cases args : operands ++ [operand] with
    | nil => exact absurd args some
    | cons first rest =>
        rw [args] at parsed
        dsimp only
        rw [Leaf.run_bind, waitHandles_run parsed, Outcome.andThen_done]
        dsimp only
        rw [Leaf.run_bind, waited]
        rfl
  rw [run, ← child.lastStatus pids 0]
  constructor
  · rintro ⟨other, same⟩
    exact (Outcome.done.inj same).1
  · intro same
    exact ⟨after, by rw [same]⟩

end

/-! ## A machine with children -/

structure Nursery where
  machine : Machine
  children : Int → Option ChildEnd

instance : System Nursery :=
  { (⟨Nursery.machine, fun nursery machine => { nursery with machine }⟩ : SystemPart Nursery Machine).system with
    waitpid := fun pid _ _ nursery =>
      match nursery.children pid with
      | some ending =>
          (.ok (pid, ending.raw), { nursery with children := Function.update nursery.children pid none })
      | none => (.error .echild, nursery) }

theorem nursery_waitpid (pid : Int) (nursery : Nursery) :
    System.waitpid pid false false nursery =
      match nursery.children pid with
      | some ending =>
          (.ok (pid, ending.raw), { nursery with children := Function.update nursery.children pid none })
      | none => (.error .echild, nursery) := rfl

theorem nursery_laws : ReapLaws Nursery Nursery.children where
  reaps pid world ending _ waits :=
    ⟨{ world with children := Function.update world.children pid none }, by rw [nursery_waitpid, waits], rfl⟩
  noChild pid world _ reaped := ⟨world, by rw [nursery_waitpid, reaped], rfl⟩

/-- A shell with a child that exits with status 3. -/
def shellWithChild (recorded : Bool) : Shell Nursery :=
  let state := mrshStateCreate []
    (⟨.isolated, fun pid => if pid = 5 && !recorded then some (.exited 3) else none⟩ : Nursery)
  { state with processes := [⟨0, 5, false, recorded, if recorded then 768 else 0, 0⟩] }

theorem pidOperand_five : PidOperand ['5'] 5 where
  noJob := by decide
  nonempty := rfl
  read := by decide
  value := by decide
  positive := by decide

/-- `wait 5` returns 3 if it reaps the child itself. -/
theorem builtinWait_status_reaps :
    ∃ after, Leaf.run (builtinWait ["wait".toList, ['5']]) (shellWithChild false) = .done 3 after := by
  have child : ChildAt Nursery.children 5 (.exited 3) (shellWithChild false) .unreaped := .unreaped rfl rfl rfl
  exact (builtinWait_status_iff nursery_laws
    (.nil : List.Forall₂ PidOperand [] []) pidOperand_five child).mpr List.not_mem_nil

/-- Once the end of the child is recorded it returns 768. -/
theorem builtinWait_recorded :
    ChildAt Nursery.children 5 (.exited 3) (shellWithChild true) .recorded ∧
      ∃ after, Leaf.run (builtinWait ["wait".toList, ['5']]) (shellWithChild true) = .done 768 after :=
  ⟨.recorded rfl rfl rfl rfl, _, rfl⟩

end Mrsh
