import Mathlib.Data.List.Basic
import Mrsh.Data.Descriptors

namespace Mrsh.Data

/-! # Pipes in a table of descriptors

A pipe gives two free numbers to its ends. An end is held until it is moved to one of the
standard numbers or closed, and a number that was free before is free again afterwards.
-/

/-- What a descriptor refers to: an end of a pipe, or something else. -/
inductive OpenFile (δ : Type) where
  | input (pipe : Nat)
  | output (pipe : Nat)
  | other (file : δ)
deriving Repr, DecidableEq

variable {δ : Type}

def IsLowestFree (table : Descriptors δ) (fd : Int) : Prop :=
  0 ≤ fd ∧ table fd = none ∧ ∀ lower, 0 ≤ lower → lower < fd → table lower ≠ none

/-- The lowest free one of the first numbers. -/
def lowestFree (table : Descriptors δ) : Option Int :=
  ((List.range 64).find? fun number : Nat => (table number).isNone).map Int.ofNat

theorem lowestFree_some {table : Descriptors δ} {fd : Int} (found : lowestFree table = some fd) :
    IsLowestFree table fd := by
  obtain ⟨number, search, rfl⟩ := Option.map_eq_some_iff.mp found
  rw [List.find?_range_eq_some] at search
  obtain ⟨free, _, taken⟩ := search
  refine ⟨by simp, by simpa using free, fun lower natural smaller => ?_⟩
  obtain ⟨k, rfl⟩ := Int.eq_ofNat_of_zero_le natural
  have isTaken := taken k (by simpa using smaller)
  intro closed
  simp [closed] at isTaken

/-- The number refers to the file, if there is one. -/
def attach (table : Descriptors δ) (fd : Int) : Option δ → Descriptors δ
  | none => table
  | some file => Function.update table fd (some file)

/-- The table of a process that has its standard input and output replaced. -/
def redirected (table : Descriptors δ) (input output : Option δ) : Descriptors δ :=
  attach (attach table 0 input) 1 output

/-- An end of a pipe is held in a free number, or -1 stands for it if there is none. -/
def IsEnd (table : Descriptors δ) (fd : Int) : Option δ → Prop
  | none => fd = -1
  | some _ => 0 ≤ fd ∧ table fd = none

variable {table : Descriptors δ} {fd other : Int} {file first second : Option δ}

theorem attach_of_ne (different : other ≠ fd) : attach table fd file other = table other := by
  cases file with
  | none => rfl
  | some file => exact Function.update_of_ne different _ _

theorem attach_comm (different : first.isSome → second.isSome → fd ≠ other) :
    attach (attach table fd first) other second = attach (attach table other second) fd first := by
  cases first with
  | none => rfl
  | some first =>
      cases second with
      | none => rfl
      | some second => exact Function.update_comm (different rfl rfl) _ _ table

theorem attach_close (free : table fd = none) (opened : file.isSome) :
    Function.update (attach table fd file) fd none = table := by
  obtain ⟨file, rfl⟩ := Option.isSome_iff_exists.mp opened
  rw [attach, Function.update_idem, ← free, Function.update_eq_self]

/-- What `dup2` followed by `close` does to a number, unless it is the target. -/
def move (table : Descriptors δ) (source target : Int) : Descriptors δ :=
  if source = target then table else Function.update (Function.update table target (table source)) source none

theorem move_attach (free : table fd = none) (opened : file.isSome) :
    move (attach table fd file) fd other = attach table other file := by
  obtain ⟨file, rfl⟩ := Option.isSome_iff_exists.mp opened
  unfold move
  split
  · rename_i same
    rw [same]
  · rename_i different
    have value : attach table fd (some file) fd = some file := Function.update_self _ _ _
    have stays : attach table other (some file) fd = none := by rw [attach_of_ne different, free]
    rw [value]
    change Function.update (attach (attach table fd (some file)) other (some file)) fd none = _
    rw [attach_comm fun _ _ => different, attach_close stays rfl]

theorem IsEnd.close (isEnd : IsEnd table fd file) :
    (if 0 ≤ fd then Function.update (attach table fd file) fd none else attach table fd file) = table := by
  cases file with
  | none =>
      have missing : ¬ 0 ≤ fd := by
        rw [show fd = -1 from isEnd]
        omega
      rw [if_neg missing, attach]
  | some file => rw [if_pos isEnd.1, attach_close isEnd.2 rfl]

/-- Of two ends each is in a number that the other one leaves free. -/
theorem IsEnd.swap (isEnd : IsEnd table fd first) (next : IsEnd (attach table fd first) other second) :
    IsEnd table other second ∧ IsEnd (attach table other second) fd first ∧
      attach (attach table fd first) other second = attach (attach table other second) fd first := by
  cases first with
  | none => exact ⟨next, isEnd, rfl⟩
  | some first =>
      cases second with
      | none => exact ⟨next, isEnd, rfl⟩
      | some second =>
          have different : other ≠ fd := by
            rintro rfl
            have taken := next.2
            rw [attach, Function.update_self] at taken
            cases taken
          refine ⟨⟨next.1, ?_⟩, ⟨isEnd.1, ?_⟩, attach_comm fun _ _ => Ne.symm different⟩
          · rw [← next.2, attach_of_ne different]
          · rw [attach_of_ne (Ne.symm different), isEnd.2]

theorem IsEnd.attach (isEnd : IsEnd table fd file) (different : file.isSome → fd ≠ other) :
    IsEnd (attach table other second) fd file := by
  cases file with
  | none => exact isEnd
  | some file => exact ⟨isEnd.1, by rw [attach_of_ne (different rfl), isEnd.2]⟩

end Mrsh.Data
