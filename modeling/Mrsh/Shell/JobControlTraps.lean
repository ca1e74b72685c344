import Mrsh.Shell.ChildSetup
import Mrsh.Shell.TrapPrograms

namespace Mrsh

open Mrsh.Data

/-! # The traps that job control resets

The loop of `set_job_control_traps` counts through the table of five signals, and uses the count also
for the table of the traps. So it resets the first five traps and not those of the signals.
-/

/-- The entries of the five signals are unset, and the others are as they were. -/
def JobControlTrapsReset (before after : Nat → Trap) : Prop :=
  (∀ index, index ∉ ignoredJobControlSigs → after index = before index) ∧
    ∀ sig ∈ ignoredJobControlSigs, after sig = unsetTrap

section

variable {World : Type}

/-- The programs of the entries at the indices. -/
def programSerials (traps : Nat → Trap) (indices : List Nat) : List Nat :=
  indices.flatMap fun index => (traps index).serials

/-- The programs of the entries are freed once, and were not freed before. -/
def FreesEach (state : Shell World) (indices : List Nat) : Prop :=
  (programSerials state.traps indices).Nodup ∧ ∀ serial ∈ programSerials state.traps indices,
    serial ∉ state.freedPrograms

theorem programSerials_withTrap (state : Shell World) {index : Nat} (trap : Trap) {indices : List Nat}
    (apart : index ∉ indices) :
    programSerials (state.withTrap index trap).traps indices = programSerials state.traps indices := by
  refine List.flatMap_congr fun other member => ?_
  have different : other ≠ index := fun same => apart (same ▸ member)
  rw [Shell.withTrap]
  exact congrArg Trap.serials (if_neg different)

theorem replaceTrap_done_iff {index : Nat} {trap : Trap} {state after : Shell World} :
    Leaf.run (replaceTrap index trap) state = .done () after ↔
      (∀ serial ∈ (state.traps index).serials, serial ∉ state.freedPrograms) ∧ after = state.withTrap index trap := by
  rw [replaceTrap, Leaf.run_gets_bind, Leaf.run_bind, Shell.withTrap, Trap.serials]
  cases owned : (state.traps index).program with
  | none =>
      constructor
      · intro ended
        cases ended
        exact ⟨fun _ member => absurd member List.not_mem_nil, rfl⟩
      · rintro ⟨-, rfl⟩
        rfl
  | some program =>
      simp only [destroyTrapProgram, assertThat, Leaf.run_bind, Leaf.run_gets, Leaf.run_update, Outcome.andThen_done,
        Leaf.run_ite,
        Leaf.run_pure, Leaf.run_abort, setTrapEntry]
      cases freed : state.freedPrograms.contains program.serial with
      | true =>
          refine iff_of_false (by intro ended; cases ended) fun unfreed => ?_
          exact unfreed.1 program.serial (List.mem_singleton.mpr rfl) (List.contains_iff_mem.mp freed)
      | false =>
          have alive : ∀ serial ∈ [program.serial], serial ∉ state.freedPrograms := by
            intro serial member freedThere
            rw [List.mem_singleton.mp member, ← List.contains_iff_mem, freed] at freedThere
            cases freedThere
          constructor
          · intro ended
            cases ended
            exact ⟨alive, rfl⟩
          · rintro ⟨-, rfl⟩
            rfl

variable [System World]

/-- The calls of `sigaction` before the first one that fails. -/
def installed (handler : Handler) : List Nat → World → Nat
  | [], _ => 0
  | sig :: sigs, world =>
      match System.sigaction sig handler world with
      | (.ok _, world) => installed handler sigs world + 1
      | (.error _, _) => 0

theorem installed_le (handler : Handler) (sigs : List Nat) (world : World) :
    installed handler sigs world ≤ sigs.length := by
  induction sigs generalizing world with
  | nil => exact Nat.le_refl 0
  | cons sig sigs ih =>
      rw [installed]
      split
      · exact Nat.succ_le_succ (ih _)
      · exact Nat.zero_le _

/-- The indices of the entries whose signals were set. -/
def reachedEntries (handler : Handler) (entries : List (Nat × Nat)) (world : World) : List Nat :=
  (entries.map Prod.snd).take (installed handler (entries.map Prod.fst) world)

omit [System World] in
/-- The programs of a list of entries are freed one after the other. -/
theorem freesEach_cons {state : Shell World} {index : Nat} {trap : Trap} {indices : List Nat}
    (apart : index ∉ indices) :
    FreesEach state (index :: indices) ↔ (∀ serial ∈ (state.traps index).serials, serial ∉ state.freedPrograms) ∧
      FreesEach (state.withTrap index trap) indices := by
  rw [FreesEach, FreesEach, programSerials_withTrap state trap apart]
  change ((state.traps index).serials ++ programSerials state.traps indices).Nodup ∧
      (∀ serial ∈ (state.traps index).serials ++ programSerials state.traps indices, serial ∉ state.freedPrograms) ↔
    _ ∧ _ ∧ ∀ serial ∈ programSerials state.traps indices, serial ∉ (state.traps index).serials ++ state.freedPrograms
  have single : (state.traps index).serials.Nodup := by
    rw [Trap.serials]
    cases (state.traps index).program.map (·.serial) <;> simp
  rw [List.nodup_append]
  simp only [List.mem_append, single, true_and]
  grind

/-- The loop resets the entries that it reaches, if it can free their programs. -/
theorem setJobControlTrapsLoop_spec (enabled : Bool) (entries : List (Nat × Nat)) (apart : (entries.map Prod.snd).Nodup)
    (state : Shell World) :
    let reached := reachedEntries (if enabled then .ignore else .default) entries state.world
    (FreesEach state reached → ∃ ok after, Leaf.run (setJobControlTrapsLoop enabled entries) state = .done ok after) ∧
    ∀ ok after, Leaf.run (setJobControlTrapsLoop enabled entries) state = .done ok after →
      FreesEach state reached ∧
        ∀ index, after.traps index = if index ∈ reached then unsetTrap else state.traps index := by
  induction entries generalizing state with
  | nil =>
      refine ⟨fun _ => ⟨_, _, rfl⟩, fun ok after ended => ?_⟩
      cases ended
      exact ⟨⟨.nil, fun _ member => absurd member List.not_mem_nil⟩, fun index => (if_neg List.not_mem_nil).symm⟩
  | cons entry entries ih =>
      obtain ⟨sig, index⟩ := entry
      obtain ⟨outside, apart⟩ := List.nodup_cons.mp apart
      simp only [setJobControlTrapsLoop, Leaf.run_bind, Leaf.run_call, Outcome.andThen_done, reachedEntries,
        List.map_cons,
        installed]
      cases called : System.sigaction sig (if enabled then .ignore else .default) state.world with
      | mk reply world =>
          cases reply with
          | error errno =>
              refine ⟨fun _ => ⟨_, _, rfl⟩, fun ok after ended => ?_⟩
              cases ended
              exact ⟨⟨.nil, fun _ member => absurd member List.not_mem_nil⟩,
                fun index => (if_neg List.not_mem_nil).symm⟩
          | ok _ =>
              have beyond : index ∉ reachedEntries (if enabled then .ignore else .default) entries world :=
                fun member => outside (List.mem_of_mem_take member)
              have frees : FreesEach state (index :: reachedEntries (if enabled then .ignore else .default)
                entries world) ↔ _ :=
                @freesEach_cons _ { state with world } index unsetTrap _ beyond
              obtain ⟨runs, resets⟩ := ih apart ({ state with world }.withTrap index unsetTrap)
              constructor
              · intro each
                obtain ⟨unfreed, rest⟩ := frees.mp each
                obtain ⟨ok, after, ended⟩ := runs rest
                refine ⟨ok, after, Leaf.run_bind_done.mpr ⟨(), _, replaceTrap_done_iff.mpr ⟨unfreed, rfl⟩, ended⟩⟩
              · intro ok after ended
                obtain ⟨_, between, replaced, ended⟩ := Leaf.run_bind_done.mp ended
                obtain ⟨unfreed, rfl⟩ := replaceTrap_done_iff.mp replaced
                obtain ⟨rest, table⟩ := resets ok after ended
                refine ⟨frees.mpr ⟨unfreed, rest⟩, fun other => ?_⟩
                rw [table other]
                change (if other ∈ reachedEntries _ entries world then unsetTrap
                  else if other = index then unsetTrap else state.traps other) =
                    if other ∈ index :: reachedEntries _ entries world then unsetTrap else state.traps other
                simp only [List.mem_cons]
                grind

/-! ## The whole table -/

/-- The five entries are reset and no other is changed. -/
def SetsJobControlTraps (enabled : Bool) (state : Shell World) : Prop :=
  ∃ ok after, Leaf.run (setJobControlTraps enabled) state = .done ok after ∧
    JobControlTrapsReset state.traps after.traps

def installedJobControl (enabled : Bool) (world : World) : Nat :=
  installed (if enabled then .ignore else .default) ignoredJobControlSigs world

theorem reachedEntries_jobControl (enabled : Bool) (world : World) :
    reachedEntries (if enabled then .ignore else .default) ignoredJobControlSigs.zipIdx world =
      List.range (installedJobControl enabled world) := by
  have indices : ignoredJobControlSigs.zipIdx.map Prod.snd = List.range 5 := rfl
  have signals : ignoredJobControlSigs.zipIdx.map Prod.fst = ignoredJobControlSigs := rfl
  have bound : installedJobControl enabled world ≤ 5 := installed_le _ _ _
  rw [reachedEntries, indices, signals, List.take_range, ← installedJobControl, Nat.min_eq_left bound]

/-- The table is set as it should be exactly if the entries before the number of the signals that were set are those of
`SIGINT` and `SIGQUIT` or were unset, and the entries of the other signals were unset. -/
theorem setJobControlTraps_iff (enabled : Bool) (state : Shell World) :
    SetsJobControlTraps enabled state ↔
      FreesEach state (List.range (installedJobControl enabled state.world)) ∧
      (∀ index < installedJobControl enabled state.world, index ∉ ignoredJobControlSigs →
        state.traps index = unsetTrap) ∧
      ∀ sig ∈ ignoredJobControlSigs, installedJobControl enabled state.world ≤ sig → state.traps sig = unsetTrap := by
  have apart : (ignoredJobControlSigs.zipIdx.map Prod.snd).Nodup := by decide
  obtain ⟨runs, resets⟩ := setJobControlTrapsLoop_spec enabled ignoredJobControlSigs.zipIdx apart state
  rw [reachedEntries_jobControl] at runs resets
  simp only [List.mem_range] at resets
  constructor
  · rintro ⟨ok, after, ended, kept, reset⟩
    obtain ⟨each, table⟩ := resets ok after ended
    refine ⟨each, fun index reached other => ?_, fun sig member beyond => ?_⟩
    · rw [← kept index other, table index, if_pos reached]
    · rw [← reset sig member, table sig, if_neg (Nat.not_lt.mpr beyond)]
  · rintro ⟨each, others, signals⟩
    obtain ⟨ok, after, ended⟩ := runs each
    obtain ⟨-, table⟩ := resets ok after ended
    refine ⟨ok, after, ended, fun index other => ?_, fun sig member => ?_⟩
    · rw [table index]
      split
      · exact (others index ‹_› other).symm
      · rfl
    · rw [table sig]
      split
      · rfl
      · exact signals sig member (Nat.not_lt.mp ‹_›)

end

/-- The trap for the end of the shell is lost when job control is enabled. -/
theorem setJobControlTraps_losesExit :
    ¬ ∀ (enabled : Bool) (state : Shell Machine), SetsJobControlTraps enabled state := by
  intro always
  obtain ⟨ok, after, ended, kept, -⟩ := always true { mrshStateCreate [] Machine.isolated with
    traps := fun index => if index = 0 then { set := true, action := .catch, program := some ⟨0,
      ⟨[]⟩⟩ } else unsetTrap }
  cases ended
  exact absurd (congrArg Trap.set (kept 0 (by decide))) (by decide)

end Mrsh
