import Mrsh.Data.Pipes

namespace Mrsh.Data

/-! # Placing files at numbers

A file is opened at the lowest free number and then placed at its target. A process does this
for good, and loses on `execv` what was opened and never placed. A caller that goes on saves a
copy of each target before, which has to be open, unless the file was opened there.
-/

variable {δ : Type}

/-- The files are placed at their targets from left to right. -/
def placed (table : Descriptors δ) : List (Int × δ) → Descriptors δ
  | [] => table
  | (target, file) :: entries => placed (Function.update table target (some file)) entries

/-- What a program sees after `execv`. -/
def afterExec (table : Descriptors δ) (closing : Int → Bool) : Descriptors δ :=
  fun n => if closing n then none else table n

/-- The placements of a process. A file that is opened is closed by `execv`, a duplicate is not. -/
inductive ProcessPlaces : Descriptors δ → (Int → Bool) → List (Int × δ) → Descriptors δ → (Int → Bool) → Prop where
  | nil (table : Descriptors δ) (closing : Int → Bool) : ProcessPlaces table closing [] table closing
  | inPlace {table final : Descriptors δ} {closing finalClosing : Int → Bool} {target : Int} {file : δ}
      {entries : List (Int × δ)} (free : IsLowestFree table target)
      (rest : ProcessPlaces (Function.update table target (some file))
        (Function.update closing target true) entries final
        finalClosing) : ProcessPlaces table closing ((target, file) :: entries) final finalClosing
  | moves {table final : Descriptors δ} {closing finalClosing : Int → Bool} {fd target : Int} {file : δ}
      {entries : List (Int × δ)} (free : IsLowestFree table fd) (different : fd ≠ target)
      (rest : ProcessPlaces (Function.update (Function.update table fd (some file)) target (some file))
        (Function.update (Function.update closing fd true) target false) entries final finalClosing) :
      ProcessPlaces table closing ((target, file) :: entries) final finalClosing

/-- The placements of a caller that saves its descriptors. -/
inductive CallerPlaces : Descriptors δ → List (Int × δ) → Descriptors δ → Prop where
  | nil (table : Descriptors δ) : CallerPlaces table [] table
  | inPlace {table final : Descriptors δ} {target : Int} {file : δ} {entries : List (Int × δ)}
      (free : IsLowestFree table target)
        (rest : CallerPlaces (Function.update table target (some file)) entries final) :
      CallerPlaces table ((target, file) :: entries) final
  | moves {table opened final : Descriptors δ} {fd copy target : Int} {file : δ} {entries : List (Int × δ)}
      (free : IsLowestFree table fd) (different : fd ≠ target) (isOpen : table target ≠ none)
      (opens : opened = Function.update table fd (some file)) (copyFree : IsLowestFree opened copy)
      (rest : CallerPlaces (Function.update (Function.update opened copy (table target)) target (some file))
        entries final) :
      CallerPlaces table ((target, file) :: entries) final

/-- Which numbers are open. -/
def openNumbers (table : Descriptors δ) : Descriptors Unit := fun n => (table n).map fun _ => ()

/-- The last file for each target is opened at another number. -/
def ProcessKeeps (opened : Descriptors Unit) : List Int → Prop
  | [] => True
  | target :: targets =>
      ∀ fd, IsLowestFree opened fd → (fd = target → target ∈ targets) ∧
        ProcessKeeps (Function.update (Function.update opened fd (some ())) target (some ())) targets

/-- Each target is open, or its file is opened there. -/
def CallerReaches (opened : Descriptors Unit) : List Int → Prop
  | [] => True
  | target :: targets =>
      ∀ fd, IsLowestFree opened fd →
        if fd = target then CallerReaches (Function.update opened fd (some ())) targets
        else opened target ≠ none ∧ ∀ copy, IsLowestFree (Function.update opened fd (some ())) copy →
          CallerReaches (Function.update (Function.update (Function.update opened fd (some ())) copy (some ())) target
            (some ())) targets

/-! ## Numbers -/

variable {table final : Descriptors δ} {closing finalClosing : Int → Bool} {entries : List (Int × δ)} {n : Int}

theorem IsLowestFree.eq {fd other : Int} (free : IsLowestFree table fd) (otherFree : IsLowestFree table other) :
    fd = other := by
  by_contra different
  rcases Int.lt_or_gt_of_ne different with lower | higher
  · exact otherFree.2.2 fd free.1 lower free.2.1
  · exact free.2.2 other otherFree.1 higher otherFree.2.1

theorem openNumbers_eq_none : openNumbers table n = none ↔ table n = none := by
  simp [openNumbers]

theorem isLowestFree_openNumbers {fd : Int} : IsLowestFree (openNumbers table) fd ↔ IsLowestFree table fd := by
  simp only [IsLowestFree, Ne, openNumbers_eq_none]

theorem openNumbers_update (table : Descriptors δ) (n : Int) (file : δ) :
    openNumbers (Function.update table n (some file)) = Function.update (openNumbers table) n (some ()) := by
  funext m
  by_cases same : m = n
  · rw [same, openNumbers, Function.update_self, Function.update_self]
    rfl
  · rw [openNumbers, Function.update_of_ne same, Function.update_of_ne same, openNumbers]

theorem placed_other (unplaced : n ∉ entries.map Prod.fst) (table : Descriptors δ) :
    placed table entries n = table n := by
  induction entries generalizing table with
  | nil => rfl
  | cons entry entries ih =>
      obtain ⟨target, file⟩ := entry
      rw [List.map_cons, List.mem_cons, not_or] at unplaced
      rw [placed, ih unplaced.2, Function.update_of_ne unplaced.1]

theorem placed_congr (isTarget : n ∈ entries.map Prod.fst) (table other : Descriptors δ) :
    placed table entries n = placed other entries n := by
  induction entries generalizing table other with
  | nil => cases isTarget
  | cons entry entries ih =>
      obtain ⟨target, file⟩ := entry
      rw [placed, placed]
      by_cases later : n ∈ entries.map Prod.fst
      · exact ih later _ _
      · have here : n = target := by simpa [later] using isTarget
        rw [placed_other later, placed_other later, here, Function.update_self, Function.update_self]

/-! ## What a process sees -/

theorem ProcessPlaces.stays (places : ProcessPlaces table closing entries final finalClosing)
    (unplaced : n ∉ entries.map Prod.fst) (isOpen : table n ≠ none) :
    final n = table n ∧ finalClosing n = closing n := by
  induction places with
  | nil => exact ⟨rfl, rfl⟩
  | @inPlace table final closing finalClosing target file entries free rest ih =>
      rw [List.map_cons, List.mem_cons, not_or] at unplaced
      have kept := ih unplaced.2
      rw [Function.update_of_ne unplaced.1, Function.update_of_ne unplaced.1] at kept
      exact kept isOpen
  | @moves table final closing finalClosing fd target file entries free different rest ih =>
      rw [List.map_cons, List.mem_cons, not_or] at unplaced
      have notOpened : n ≠ fd := by
        rintro rfl
        exact isOpen free.2.1
      have kept := ih unplaced.2
      rw [Function.update_of_ne unplaced.1, Function.update_of_ne unplaced.1, Function.update_of_ne notOpened,
        Function.update_of_ne notOpened] at kept
      exact kept isOpen

theorem forall_targets_iff {target : Int} {file : δ} {property : Int → Prop} :
    (∀ n ∈ ((target, file) :: entries).map Prod.fst, property n) ↔
      (target ∉ entries.map Prod.fst → property target) ∧ ∀ n ∈ entries.map Prod.fst, property n := by
  rw [List.map_cons, List.forall_mem_cons]
  constructor
  · rintro ⟨first, later⟩
    exact ⟨fun _ => first, later⟩
  · rintro ⟨first, later⟩
    refine ⟨?_, later⟩
    by_cases again : target ∈ entries.map Prod.fst
    · exact later target again
    · exact first again

theorem processKeeps_cons_iff {fd target : Int} (free : IsLowestFree table fd) (file : δ) (targets : List Int) :
    ProcessKeeps (openNumbers table) (target :: targets) ↔ (fd = target → target ∈ targets) ∧
      ProcessKeeps (openNumbers (Function.update (Function.update table fd (some file)) target (some file)))
        targets := by
  rw [openNumbers_update, openNumbers_update, ProcessKeeps]
  constructor
  · intro keeps
    exact keeps fd (isLowestFree_openNumbers.mpr free)
  · intro keeps other otherFree
    rw [← free.eq (isLowestFree_openNumbers.mp otherFree)]
    exact keeps

theorem placed_later {target : Int} {file : δ} (other : Descriptors δ) {seen : Descriptors δ} :
    (∀ n ∈ entries.map Prod.fst, seen n = placed table ((target, file) :: entries) n) ↔
      ∀ n ∈ entries.map Prod.fst, seen n = placed other entries n := by
  apply forall₂_congr
  intro n isTarget
  rw [placed, placed_congr isTarget _ other]

/-- After `execv` the targets are their files exactly if the last file for each was opened elsewhere. -/
theorem ProcessPlaces.sees_iff (places : ProcessPlaces table closing entries final finalClosing) :
    (∀ n ∈ entries.map Prod.fst, afterExec final finalClosing n = placed table entries n) ↔
      ProcessKeeps (openNumbers table) (entries.map Prod.fst) := by
  induction places with
  | nil => simp [ProcessKeeps]
  | @inPlace table final closing finalClosing target file entries free rest ih =>
      have unseen (last : target ∉ entries.map Prod.fst) :
          afterExec final finalClosing target ≠ placed table ((target, file) :: entries) target := by
        obtain ⟨-, closes⟩ := rest.stays last (by simp)
        rw [placed, placed_other last, afterExec, closes]
        simp
      rw [forall_targets_iff, placed_later (Function.update table target (some file)), ih, List.map_cons,
        processKeeps_cons_iff free file, Function.update_idem]
      apply and_congr_left'
      constructor
      · intro sees _
        by_contra last
        exact unseen last (sees last)
      · intro again last
        exact absurd (again rfl) last
  | @moves table final closing finalClosing fd target file entries free different rest ih =>
      have seen (last : target ∉ entries.map Prod.fst) :
          afterExec final finalClosing target = placed table ((target, file) :: entries) target := by
        obtain ⟨same, closes⟩ := rest.stays last (by simp)
        rw [placed, placed_other last, afterExec, closes, same]
        simp
      rw [forall_targets_iff,
        placed_later (Function.update (Function.update table fd (some file)) target (some file)), ih,
        List.map_cons, processKeeps_cons_iff free file]
      apply and_congr_left'
      exact iff_of_true seen fun same => absurd same different

/-! ## What a caller sees -/

theorem CallerPlaces.stays (places : CallerPlaces table entries final) (unplaced : n ∉ entries.map Prod.fst)
    (isOpen : table n ≠ none) : final n = table n := by
  induction places with
  | nil => rfl
  | @inPlace table final target file entries free rest ih =>
      rw [List.map_cons, List.mem_cons, not_or] at unplaced
      have kept := ih unplaced.2
      rw [Function.update_of_ne unplaced.1] at kept
      exact kept isOpen
  | @moves table opened final fd copy target file entries free different targetOpen opens copyFree rest ih =>
      rw [List.map_cons, List.mem_cons, not_or] at unplaced
      have notOpened : n ≠ fd := by
        rintro rfl
        exact isOpen free.2.1
      have openedSame : opened n = table n := by rw [opens, Function.update_of_ne notOpened]
      have notCopy : n ≠ copy := by
        rintro rfl
        rw [← openedSame] at isOpen
        exact isOpen copyFree.2.1
      have kept := ih unplaced.2
      rw [Function.update_of_ne unplaced.1, Function.update_of_ne notCopy, openedSame] at kept
      exact kept isOpen

theorem CallerPlaces.sees (places : CallerPlaces table entries final) :
    ∀ n ∈ entries.map Prod.fst, final n = placed table entries n := by
  induction places with
  | nil => simp
  | @inPlace table final target file entries free rest ih =>
      rw [forall_targets_iff, placed_later (Function.update table target (some file))]
      refine ⟨fun last => ?_, ih⟩
      rw [placed, placed_other last, rest.stays last (by simp)]
  | @moves table opened final fd copy target file entries free different targetOpen opens copyFree rest ih =>
      rw [forall_targets_iff,
        placed_later (Function.update (Function.update opened copy (table target)) target (some file))]
      refine ⟨fun last => ?_, ih⟩
      rw [placed, placed_other last, rest.stays last (by simp), Function.update_self, Function.update_self]

theorem callerReaches_inPlace {target : Int} (free : IsLowestFree table target) (file : δ) (targets : List Int) :
    CallerReaches (openNumbers table) (target :: targets) ↔
      CallerReaches (openNumbers (Function.update table target (some file))) targets := by
  rw [openNumbers_update, CallerReaches]
  constructor
  · intro reaches
    have here := reaches target (isLowestFree_openNumbers.mpr free)
    rwa [if_pos rfl] at here
  · intro reaches other otherFree
    rw [← free.eq (isLowestFree_openNumbers.mp otherFree), if_pos rfl]
    exact reaches

theorem callerReaches_moves {opened : Descriptors δ} {fd copy target : Int} (free : IsLowestFree table fd)
    (different : fd ≠ target) {file : δ} (opens : opened = Function.update table fd (some file))
    (copyFree : IsLowestFree opened copy) {saved : δ} (isOpen : table target = some saved) (targets : List Int) :
    CallerReaches (openNumbers table) (target :: targets) ↔ CallerReaches
      (openNumbers (Function.update (Function.update opened copy (table target)) target (some file))) targets := by
  rw [isOpen, openNumbers_update, openNumbers_update, CallerReaches]
  have openedNumbers : openNumbers opened = Function.update (openNumbers table) fd (some ()) := by
    rw [opens, openNumbers_update]
  rw [openedNumbers]
  constructor
  · intro reaches
    have here := reaches fd (isLowestFree_openNumbers.mpr free)
    rw [if_neg different] at here
    exact here.2 copy (by rw [← openedNumbers]; exact isLowestFree_openNumbers.mpr copyFree)
  · intro reaches other otherFree
    rw [← free.eq (isLowestFree_openNumbers.mp otherFree), if_neg different]
    refine ⟨by simp [openNumbers, isOpen], fun otherCopy otherCopyFree => ?_⟩
    rw [← openedNumbers] at otherCopyFree
    rw [← copyFree.eq (isLowestFree_openNumbers.mp otherCopyFree)]
    exact reaches

theorem not_callerReaches {fd target : Int} (free : IsLowestFree table fd) (different : fd ≠ target)
    (closed : table target = none) (targets : List Int) : ¬ CallerReaches (openNumbers table) (target :: targets) := by
  intro reaches
  have here := reaches fd (isLowestFree_openNumbers.mpr free)
  rw [if_neg different] at here
  exact here.1 (openNumbers_eq_none.mpr closed)

end Mrsh.Data
