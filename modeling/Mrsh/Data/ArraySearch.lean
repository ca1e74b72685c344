import Mathlib.Data.List.Basic

namespace Mrsh.Data

/-! # Searches in an array without a bound

A search that ends at a value or at a mark, whichever comes first, reads past
the end of an array in which there is neither. An array that is cleared to the
mark and then filled from its start with some of the values of a list of its own
length keeps a mark unless all of them went into it.
-/

variable {α : Type} [DecidableEq α]

/-- Whether the value is met before the mark, none if the array ends first. -/
def searchCells (mark value : α) : List α → Option Bool
  | [] => none
  | cell :: cells =>
      if cell = value then some true else if cell = mark then some false else searchCells mark value cells

theorem searchCells_isSome {mark value : α} {cells : List α} :
    (searchCells mark value cells).isSome ↔ value ∈ cells ∨ mark ∈ cells := by
  induction cells with
  | nil => simp [searchCells]
  | cons cell cells ih =>
      rw [searchCells]
      split
      · simp_all
      · split
        · simp_all
        · rename_i otherValue otherMark
          rw [ih, List.mem_cons, List.mem_cons]
          simp [Ne.symm otherValue, Ne.symm otherMark]

theorem searchCells_mem {mark value : α} {before : List α} (unmarked : mark ∉ before) (met : value ∈ before)
    (after : List α) : searchCells mark value (before ++ after) = some true := by
  induction before with
  | nil => cases met
  | cons cell before ih =>
      rw [List.cons_append, searchCells]
      split
      · rfl
      · rename_i other
        have cellKept : cell ≠ mark := fun same => unmarked (same ▸ List.mem_cons_self)
        have later : value ∈ before := (List.mem_cons.mp met).resolve_left (Ne.symm other)
        rw [if_neg cellKept]
        exact ih (fun member => unmarked (List.mem_cons_of_mem _ member)) later

theorem searchCells_mark {mark value : α} {before : List α} (absent : value ∉ before) (other : value ≠ mark)
    (after : List α) : searchCells mark value (before ++ mark :: after) = some false := by
  induction before with
  | nil => rw [List.nil_append, searchCells, if_neg (Ne.symm other), if_pos rfl]
  | cons cell before ih =>
      have cellKept : cell ≠ value := fun same => absent (same ▸ List.mem_cons_self)
      rw [List.cons_append, searchCells, if_neg cellKept]
      split
      · rfl
      · exact ih fun member => absent (List.mem_cons_of_mem _ member)

/-! ## Filling an array -/

/-- Writes the values that are kept into the array, from an index on. -/
def fillCells (keep : α → Bool) (cells : List α) (next : Nat) : List α → List α
  | [] => cells
  | value :: values =>
      if keep value then fillCells keep (cells.set next value) (next + 1) values
      else fillCells keep cells next values

omit [DecidableEq α] in
theorem fillCells_replicate (keep : α → Bool) (mark : α) (values before : List α) (extra : Nat) :
    fillCells keep (before ++ List.replicate (values.length + extra) mark) before.length values =
      before ++ values.filter keep ++ List.replicate (values.countP (!keep ·) + extra) mark := by
  induction values generalizing before extra with
  | nil => simp [fillCells]
  | cons value values ih =>
      rw [fillCells]
      split
      · rename_i kept
        have room : (value :: values).length + extra = values.length + extra + 1 := by
          simp only [List.length_cons]
          omega
        rw [room, List.replicate_succ, List.set_append_right _ _ (Nat.le_refl _), Nat.sub_self, List.set_cons_zero]
        have next := ih (before ++ [value]) extra
        rw [List.length_append, List.length_singleton] at next
        rw [List.append_cons, next]
        simp [kept]
      · rename_i skipped
        have room : (value :: values).length + extra = values.length + (extra + 1) := by
          simp only [List.length_cons]
          omega
        rw [room, ih before (extra + 1)]
        simp [skipped]
        omega

end Mrsh.Data
