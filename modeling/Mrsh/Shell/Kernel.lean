import Mrsh.Data.Performing
import Mrsh.Shell.SystemPart

namespace Mrsh

open Mrsh.Data

/-! # A system with files and pipes

Every file can be opened, and everything that is written is taken at once. The system keeps a
table of descriptors, with those that are closed on `execv`, and a record of the calls that
change it.
-/

/-- What a process asks to be opened. -/
inductive Request where
  | openFile (path : Str) (mode : OpenMode)
  | pipe
deriving Repr, DecidableEq

structure Kernel where
  descriptors : Descriptors Str
  /-- Only numbers below are open. -/
  bound : Nat
  closed_above : ∀ n : Int, bound ≤ n → descriptors n = none
  /-- The descriptors that are closed by `execv`. -/
  closing : Int → Bool
  events : List (TableEvent Request Str)
  /-- Everything that was written. -/
  sent : Str
  forks : Nat
  /-- Whether a run goes on as the child after a `fork`. -/
  inChild : Bool

namespace Kernel

def lowestFree (kernel : Kernel) : Nat :=
  ((List.range kernel.bound).find? fun number : Nat => (kernel.descriptors number).isNone).getD kernel.bound

theorem lowestFree_isLowestFree (kernel : Kernel) : IsLowestFree kernel.descriptors kernel.lowestFree := by
  unfold lowestFree
  cases found : (List.range kernel.bound).find? fun number : Nat => (kernel.descriptors number).isNone with
  | some number =>
      rw [List.find?_range_eq_some] at found
      obtain ⟨free, _, taken⟩ := found
      refine ⟨by simp, by simpa using free, fun lower natural smaller closed => ?_⟩
      obtain ⟨k, rfl⟩ := Int.eq_ofNat_of_zero_le natural
      have isTaken := taken k (by simpa using smaller)
      simp [closed] at isTaken
  | none =>
      rw [List.find?_range_eq_none] at found
      refine ⟨by simp, kernel.closed_above _ (by simp), fun lower natural smaller closed => ?_⟩
      obtain ⟨k, rfl⟩ := Int.eq_ofNat_of_zero_le natural
      have isTaken := found k (by simpa using smaller)
      simp [closed] at isTaken

def set (kernel : Kernel) (fd : Int) (file : Option Str) (closing : Bool) : Kernel :=
  { kernel with
    descriptors := Function.update kernel.descriptors fd file
    bound := max kernel.bound (fd.toNat + 1)
    closed_above := by
      intro n above
      rw [Function.update_of_ne (by omega)]
      exact kernel.closed_above n (by omega)
    closing := Function.update kernel.closing fd closing }

def noting (kernel : Kernel) (event : TableEvent Request Str) : Kernel :=
  { kernel with events := kernel.events ++ [event] }

def openFile (kernel : Kernel) (path : Str) (mode : OpenMode) : Int × Kernel :=
  (kernel.lowestFree,
    (kernel.noting (.opened (.openFile path mode) kernel.lowestFree path)).set kernel.lowestFree (some path) true)

def openPipe (kernel : Kernel) : (Int × Int) × Kernel :=
  let reading := (kernel.noting (.opened .pipe kernel.lowestFree "pipe".toList)).set kernel.lowestFree
    (some "pipe".toList) false
  ((kernel.lowestFree, reading.lowestFree), reading.set reading.lowestFree (some "pipe".toList) false)

def dup (kernel : Kernel) (fd : Int) : Except Errno Int × Kernel :=
  match kernel.descriptors fd with
  | some file => (.ok kernel.lowestFree, kernel.set kernel.lowestFree (some file) false)
  | none => (.error .einval, kernel)

def dup2 (kernel : Kernel) (source target : Int) : Except Errno Unit × Kernel :=
  match kernel.descriptors source with
  | some file =>
      if target < 0 then (.error .einval, kernel)
      else (.ok (), (kernel.noting (.moved source target file)).set target (some file) false)
  | none => (.error .einval, kernel)

end Kernel

instance : System Kernel :=
  { isolatedSystem Kernel with
    fork := fun kernel => (.ok (if kernel.inChild then 0 else 2), { kernel with forks := kernel.forks + 1 })
    tcsetpgrp := fun _ kernel => (.ok (), kernel)
    tcgetattr := fun kernel => (.ok 0, kernel)
    tcsetattr := fun _ kernel => (.ok (), kernel)
    kill := fun _ _ kernel => (.ok (), kernel)
    pipe := fun kernel => (.ok kernel.openPipe.1, kernel.openPipe.2)
    openFile := fun path mode kernel => (.ok (kernel.openFile path mode).1, (kernel.openFile path mode).2)
    close := fun fd kernel => ((), kernel.set fd none false)
    dup := fun fd kernel => kernel.dup fd
    dup2 := fun source target kernel => kernel.dup2 source target
    write := fun _ text kernel => (.ok text.length, { kernel with sent := kernel.sent ++ text }) }

/-- The standard descriptors are open. -/
def standardKernel (inChild : Bool) : Kernel where
  descriptors fd :=
    if fd = 0 then some "in".toList else if fd = 1 then some "out".toList else if fd =
      2 then some "err".toList else none
  bound := 3
  closed_above n above := by
    rw [if_neg (by omega), if_neg (by omega), if_neg (by omega)]
  closing _ := false
  events := []
  sent := []
  forks := 0
  inChild := inChild

end Mrsh
