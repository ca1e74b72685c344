import Mrsh.Data.Placement

namespace Mrsh.Data

/-! # Performing placements

What a program is to find at its descriptors is a list of placements: a file that is opened for
a number, or a duplicate of another number. They are performed by calls that open a file at a
free number and calls that move a number to another, in the order of the list.
-/

variable {ρ δ : Type}

inductive Placing (ρ : Type) where
  | opens (request : ρ) (target : Int)
  | duplicates (source target : Int)
deriving Repr, DecidableEq

/-- A call that changes the table, and the file that it is about. -/
inductive TableEvent (ρ δ : Type) where
  | opened (request : ρ) (fd : Int) (file : δ)
  | moved (source target : Int) (file : δ)
deriving Repr, DecidableEq

/-- A number that is a duplicate of itself. -/
def Placing.Stays (placing : Placing ρ) : Prop := ∃ n, placing = .duplicates n n

/-- The calls that perform the placements, and the files that they place. A file that is opened
at its target is not moved. -/
inductive Performed : List (Placing ρ) → List (TableEvent ρ δ) → List (Int × δ) → Prop where
  | nil : Performed [] [] []
  | inPlace {placings : List (Placing ρ)} {events : List (TableEvent ρ δ)} {entries : List (Int × δ)}
      (request : ρ) (target : Int) (file : δ) (rest : Performed placings events entries) :
      Performed (.opens request target :: placings) (.opened request target file :: events) ((target, file) :: entries)
  | moved {placings : List (Placing ρ)} {events : List (TableEvent ρ δ)} {entries : List (Int × δ)} {fd target : Int}
      (request : ρ) (file : δ) (different : fd ≠ target) (rest : Performed placings events entries) :
      Performed (.opens request target :: placings) (.opened request fd file :: .moved fd target file :: events)
        ((target, file) :: entries)
  | stays {placings : List (Placing ρ)} {events : List (TableEvent ρ δ)} {entries : List (Int × δ)} (n : Int)
      (rest : Performed placings events entries) : Performed (.duplicates n n :: placings) events entries
  | duplicated {placings : List (Placing ρ)} {events : List (TableEvent ρ δ)} {entries : List (Int × δ)}
      {source target : Int} (file : δ) (different : source ≠ target) (rest : Performed placings events entries) :
      Performed (.duplicates source target :: placings) (.moved source target file :: events)
        ((target, file) :: entries)

/-- The calls perform the placements, and each target is seen as the last file that was placed there. -/
def InEffect (table seen : Descriptors δ) (placings : List (Placing ρ)) (events : List (TableEvent ρ δ)) : Prop :=
  ∃ entries, Performed placings events entries ∧ ∀ n ∈ entries.map Prod.fst, seen n = placed table entries n

/-! ## Calls and placements -/

variable {placings : List (Placing ρ)} {events : List (TableEvent ρ δ)} {entries others : List (Int × δ)}

theorem Performed.unique (performed : Performed placings events entries) (again : Performed placings events others) :
    others = entries := by
  induction performed generalizing others with
  | nil =>
      cases again
      rfl
  | inPlace request target file rest ih =>
      cases again with
      | inPlace _ _ _ later => rw [ih later]
      | moved _ _ different later => exact absurd rfl different
  | moved request file different rest ih =>
      cases again with
      | inPlace _ _ _ later => exact absurd rfl different
      | moved _ _ _ later => rw [ih later]
  | stays n rest ih =>
      cases again with
      | stays _ later => exact ih later
      | duplicated _ different _ => exact absurd rfl different
  | duplicated file different rest ih =>
      cases again with
      | stays _ _ => exact absurd rfl different
      | duplicated _ _ later => rw [ih later]

/-- Nothing is done exactly for numbers that are duplicates of themselves. -/
theorem inEffect_nothing_iff (table : Descriptors δ) (placings : List (Placing ρ)) :
    InEffect table table placings [] ↔ ∀ placing ∈ placings, placing.Stays := by
  constructor
  · rintro ⟨entries, performed, -⟩
    generalize none : ([] : List (TableEvent ρ δ)) = events at performed
    induction performed with
    | nil => simp
    | inPlace | moved | duplicated => cases none
    | stays n rest ih =>
        rw [List.forall_mem_cons]
        exact ⟨⟨n, rfl⟩, ih none⟩
  · intro stay
    refine ⟨[], ?_, by simp⟩
    induction placings with
    | nil => exact .nil
    | cons placing placings ih =>
        rw [List.forall_mem_cons] at stay
        obtain ⟨⟨n, rfl⟩, later⟩ := stay
        exact .stays n (ih later)

/-! ## Placements that are seen at once -/

/-- Each placement sets its target and leaves all other numbers that are open as they are. -/
inductive Places :
    Descriptors δ → List (Placing ρ) → List (TableEvent ρ δ) → List (Int × δ) → Descriptors δ → Prop where
  | nil (table : Descriptors δ) : Places table [] [] [] table
  | place {table next final : Descriptors δ} {placing : Placing ρ} {placings : List (Placing ρ)}
      {first events : List (TableEvent ρ δ)} {target : Int} {file : δ} {entries : List (Int × δ)}
      (performed : Performed [placing] first [(target, file)]) (placed : next target = some file)
      (others : ∀ n, n ≠ target → table n ≠ none →
        next n = table n) (rest : Places next placings events entries final) :
      Places table (placing :: placings) (first ++ events) ((target, file) :: entries) final
  | stays {table final : Descriptors δ} {placings : List (Placing ρ)} {events : List (TableEvent ρ δ)}
      {entries : List (Int × δ)} (n : Int) (rest : Places table placings events entries final) :
      Places table (.duplicates n n :: placings) events entries final

variable {table final : Descriptors δ} {n : Int}

theorem Performed.append {placing : Placing ρ} {first : List (TableEvent ρ δ)} {target : Int} {file : δ}
    (performed : Performed [placing] first [(target, file)]) (rest : Performed placings events entries) :
    Performed (placing :: placings) (first ++ events) ((target, file) :: entries) := by
  cases performed with
  | inPlace request _ _ nothing =>
      cases nothing
      exact .inPlace request target file rest
  | moved request _ different nothing =>
      cases nothing
      exact .moved request file different rest
  | stays _ nothing => cases nothing
  | duplicated _ different nothing =>
      cases nothing
      exact .duplicated file different rest

theorem Places.performed (places : Places table placings events entries final) : Performed placings events entries := by
  induction places with
  | nil => exact .nil
  | place performed _ _ _ ih => exact performed.append ih
  | stays n _ ih => exact .stays n ih

theorem Places.untouched (places : Places table placings events entries final) (unplaced : n ∉ entries.map Prod.fst)
    (isOpen : table n ≠ none) : final n = table n := by
  induction places with
  | nil => rfl
  | place performed placed others rest ih =>
      rw [List.map_cons, List.mem_cons, not_or] at unplaced
      have same := others n unplaced.1 isOpen
      rw [ih unplaced.2 (by rw [same]; exact isOpen), same]
  | stays _ _ ih => exact ih unplaced isOpen

theorem Places.sees (places : Places table placings events entries final) :
    ∀ n ∈ entries.map Prod.fst, final n = placed table entries n := by
  induction places with
  | nil => simp
  | @place table next _ _ _ _ _ target file entries performed targetPlaced others rest ih =>
      rw [forall_targets_iff, placed_later next]
      refine ⟨fun last => ?_, ih⟩
      rw [placed, placed_other last, Function.update_self, rest.untouched last (by simp [targetPlaced]), targetPlaced]
  | stays _ _ ih => exact ih

theorem Places.inEffect (places : Places table placings events entries final) : InEffect table final placings events :=
  ⟨entries, places.performed, places.sees⟩

/-! ## Placements for a program that is executed -/

/-- The placements that a process makes, with the numbers that are closed when it executes a program. What a
request opens may be among these. -/
inductive PlacesForExec (closes : ρ → Bool) : Descriptors δ → (Int → Bool) → List (Placing ρ) →
    List (TableEvent ρ δ) → List (Int × δ) → Descriptors δ → (Int → Bool) → Prop where
  | nil (table : Descriptors δ) (closing : Int → Bool) : PlacesForExec closes table closing [] [] [] table closing
  | inPlace {table final : Descriptors δ} {closing finalClosing : Int → Bool} {placings : List (Placing ρ)}
      {events : List (TableEvent ρ δ)} {entries : List (Int × δ)} {target : Int} {request : ρ} {file : δ}
      (free : IsLowestFree table target)
      (rest : PlacesForExec closes (Function.update table target (some file))
        (Function.update closing target (closes request))
        placings events entries final finalClosing) :
      PlacesForExec closes table closing (.opens request target :: placings) (.opened request target file :: events)
        ((target, file) :: entries) final finalClosing
  | moved {table final : Descriptors δ} {closing finalClosing : Int → Bool} {placings : List (Placing ρ)}
      {events : List (TableEvent ρ δ)} {entries : List (Int × δ)} {fd target : Int} {request : ρ} {file : δ}
      (free : IsLowestFree table fd) (different : fd ≠ target)
      (rest : PlacesForExec closes (Function.update (Function.update table fd (some file)) target (some file))
        (Function.update (Function.update closing fd (closes request)) target false) placings events entries final
        finalClosing) :
      PlacesForExec closes table closing (.opens request target :: placings)
        (.opened request fd file :: .moved fd target file :: events) ((target, file) :: entries) final finalClosing
  | stays {table final : Descriptors δ} {closing finalClosing : Int → Bool} {placings : List (Placing ρ)}
      {events : List (TableEvent ρ δ)} {entries : List (Int × δ)} (n : Int)
      (rest : PlacesForExec closes table closing placings events entries final finalClosing) :
      PlacesForExec closes table closing (.duplicates n n :: placings) events entries final finalClosing
  | duplicated {table final : Descriptors δ} {closing finalClosing : Int → Bool} {placings : List (Placing ρ)}
      {events : List (TableEvent ρ δ)} {entries : List (Int × δ)} {source target : Int} {file : δ}
      (different : source ≠ target) (isOpen : table source = some file)
      (rest : PlacesForExec closes (Function.update table target (some file))
        (Function.update closing target false) placings
        events entries final finalClosing) :
      PlacesForExec closes table closing (.duplicates source target :: placings) (.moved source target file :: events)
        ((target, file) :: entries) final finalClosing

def Placing.target : Placing ρ → Int
  | opens _ target => target
  | duplicates _ target => target

instance (placing : Placing ρ) : Decidable placing.Stays :=
  match placing with
  | .opens _ _ => .isFalse nofun
  | .duplicates source target =>
      if same : source = target then .isTrue ⟨source, by rw [same]⟩
      else .isFalse fun ⟨n, stays⟩ => same (by cases stays; rfl)

/-- The numbers where something is placed. -/
def placedNumbers (placings : List (Placing ρ)) : List Int :=
    (placings.filter fun placing => ¬ placing.Stays).map Placing.target

/-- What is closed on execution is opened at its own target only if something else is placed there later. -/
def KeptByExec (closes : ρ → Bool) (opened : Descriptors Unit) : List (Placing ρ) → Prop
  | [] => True
  | .opens request target :: placings =>
      ∀ fd, IsLowestFree opened fd → (fd = target → closes request = true → target ∈ placedNumbers placings) ∧
        KeptByExec closes (Function.update (Function.update opened fd (some ())) target (some ())) placings
  | .duplicates source target :: placings =>
      KeptByExec closes (if source = target then opened else Function.update opened target (some ())) placings

variable {closes : ρ → Bool} {closing finalClosing : Int → Bool}

theorem PlacesForExec.performed
    (places : PlacesForExec closes table closing placings events entries final finalClosing) :
    Performed placings events entries := by
  induction places with
  | nil => exact .nil
  | inPlace _ _ ih => exact .inPlace _ _ _ ih
  | moved _ different _ ih => exact .moved _ _ different ih
  | stays n _ ih => exact .stays n ih
  | duplicated different _ _ ih => exact .duplicated _ different ih

theorem Performed.targets (performed : Performed placings events entries) :
    entries.map Prod.fst = placedNumbers placings := by
  have notStays {source target : Int} (different : source ≠ target) :
      ¬ (Placing.duplicates source target : Placing ρ).Stays := by
    rintro ⟨n, same⟩
    cases same
    exact different rfl
  have opensMoves (request : ρ) (target : Int) : ¬ (Placing.opens request target).Stays := nofun
  induction performed with
  | nil => rfl
  | inPlace request target file rest ih => simp [placedNumbers, opensMoves, Placing.target, ih]
  | moved request file different rest ih => simp [placedNumbers, opensMoves, Placing.target, ih]
  | stays n rest ih =>
      have stay : (Placing.duplicates n n : Placing ρ).Stays := ⟨n, rfl⟩
      simp [placedNumbers, stay, ih]
  | duplicated file different rest ih => simp [placedNumbers, notStays different, Placing.target, ih]

theorem PlacesForExec.untouched (places : PlacesForExec closes table closing placings events entries final finalClosing)
    (unplaced : n ∉ entries.map Prod.fst) (isOpen : table n ≠ none) :
    final n = table n ∧ finalClosing n = closing n := by
  induction places with
  | nil => exact ⟨rfl, rfl⟩
  | inPlace free rest ih =>
      rw [List.map_cons, List.mem_cons, not_or] at unplaced
      have kept := ih unplaced.2
      rw [Function.update_of_ne unplaced.1, Function.update_of_ne unplaced.1] at kept
      exact kept isOpen
  | @moved _ _ _ _ _ _ _ fd _ _ _ free different rest ih =>
      rw [List.map_cons, List.mem_cons, not_or] at unplaced
      have notOpened : n ≠ fd := by
        rintro rfl
        exact isOpen free.2.1
      have kept := ih unplaced.2
      rw [Function.update_of_ne unplaced.1, Function.update_of_ne unplaced.1, Function.update_of_ne notOpened,
        Function.update_of_ne notOpened] at kept
      exact kept isOpen
  | stays _ _ ih => exact ih unplaced isOpen
  | duplicated different sourceOpen rest ih =>
      rw [List.map_cons, List.mem_cons, not_or] at unplaced
      have kept := ih unplaced.2
      rw [Function.update_of_ne unplaced.1, Function.update_of_ne unplaced.1] at kept
      exact kept isOpen

theorem PlacesForExec.sees_untouched
    (places : PlacesForExec closes table closing placings events entries final finalClosing)
    (unplaced : n ∉ entries.map Prod.fst) (isOpen : table n ≠ none) :
    afterExec final finalClosing n = afterExec table closing n := by
  obtain ⟨same, closesSame⟩ := places.untouched unplaced isOpen
  rw [afterExec, afterExec, same, closesSame]

theorem keptByExec_opens_iff {fd : Int} (free : IsLowestFree table fd) (file : δ) (request : ρ) (target : Int)
    (placings : List (Placing ρ)) :
    KeptByExec closes (openNumbers table) (.opens request target :: placings) ↔
      (fd = target → closes request = true → target ∈ placedNumbers placings) ∧ KeptByExec closes
        (openNumbers (Function.update (Function.update table fd (some file)) target (some file))) placings := by
  rw [openNumbers_update, openNumbers_update, KeptByExec]
  constructor
  · intro keeps
    exact keeps fd (isLowestFree_openNumbers.mpr free)
  · intro keeps other otherFree
    rw [← free.eq (isLowestFree_openNumbers.mp otherFree)]
    exact keeps

/-- After the execution the targets are their files exactly if the last file for each is not closed by it. -/
theorem PlacesForExec.sees_iff
    (places : PlacesForExec closes table closing placings events entries final finalClosing) :
    (∀ n ∈ entries.map Prod.fst, afterExec final finalClosing n = placed table entries n) ↔
      KeptByExec closes (openNumbers table) placings := by
  induction places with
  | nil => simp [KeptByExec]
  | @inPlace table final closing finalClosing placings events entries target request file free rest ih =>
      have last (unplaced : target ∉ entries.map Prod.fst) :
          afterExec final finalClosing target = placed table ((target, file) :: entries) target ↔
            closes request ≠ true := by
        rw [placed, placed_other unplaced, rest.sees_untouched unplaced (by simp), afterExec]
        simp
      rw [forall_targets_iff, placed_later (Function.update table target (some file)), ih,
        keptByExec_opens_iff free file,
        Function.update_idem, ← rest.performed.targets]
      apply and_congr_left'
      constructor
      · intro sees _ isClosed
        by_contra unplaced
        exact (last unplaced).mp (sees unplaced) isClosed
      · intro again unplaced
        exact (last unplaced).mpr fun isClosed => unplaced (again rfl isClosed)
  | @moved table final closing finalClosing placings events entries fd target request file free different rest ih =>
      have seen (unplaced : target ∉ entries.map Prod.fst) :
          afterExec final finalClosing target = placed table ((target, file) :: entries) target := by
        rw [placed, placed_other unplaced, rest.sees_untouched unplaced (by simp), afterExec]
        simp
      rw [forall_targets_iff,
        placed_later (Function.update (Function.update table fd (some file)) target (some file)), ih,
        keptByExec_opens_iff free file]
      apply and_congr_left'
      exact iff_of_true seen fun same => absurd same different
  | stays n rest ih => rw [ih, KeptByExec, if_pos rfl]
  | @duplicated table final closing finalClosing placings events entries source target file different isOpen rest ih =>
      have seen (unplaced : target ∉ entries.map Prod.fst) :
          afterExec final finalClosing target = placed table ((target, file) :: entries) target := by
        rw [placed, placed_other unplaced, rest.sees_untouched unplaced (by simp), afterExec]
        simp
      rw [forall_targets_iff, placed_later (Function.update table target (some file)), ih, KeptByExec, if_neg different,
        openNumbers_update]
      exact and_iff_right seen

theorem PlacesForExec.inEffect_iff
    (places : PlacesForExec closes table closing placings events entries final finalClosing) :
    InEffect table (afterExec final finalClosing) placings events ↔ KeptByExec closes (openNumbers table) placings := by
  rw [← places.sees_iff]
  constructor
  · rintro ⟨others, performed, sees⟩
    rw [places.performed.unique performed] at sees
    exact sees
  · exact fun sees => ⟨entries, places.performed, sees⟩

end Mrsh.Data
