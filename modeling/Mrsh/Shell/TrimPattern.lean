import Mrsh.Data.Trimming
import Mrsh.Shell.Task.Word

namespace Mrsh

open Mrsh.Data

/-! # Pattern removal

`trim_pattern` tries the split points of the string except the one at its end. This leaves
out the whole string as a prefix and the empty string as a suffix.
-/

section

variable {World : Type} [System World] {str pattern : Str} {suffix largest : Bool}

theorem trimPattern_eq_trimBelow :
    trimPattern World str pattern suffix largest =
      trimBelow (System.fnmatch World pattern) str suffix largest str.length := by
  cases suffix <;> cases largest <;> rfl

/-- The string loses the shortest or the longest matching part exactly if its end is irrelevant. -/
theorem trimPattern_isTrimmed_iff :
    IsTrimmed (System.fnmatch World pattern) str suffix largest (trimPattern World str pattern suffix largest) ↔
      EndIrrelevant (System.fnmatch World pattern) str suffix largest := by
  rw [trimPattern_eq_trimBelow]
  exact trimBelow_length_iff

end

/-- The largest prefix of `?` that `?` matches is the whole string, which is kept. -/
theorem trimPattern_keeps_whole : trimPattern Machine ['?'] ['?'] false true = ['?'] ∧
    ¬ IsTrimmed (System.fnmatch Machine ['?']) ['?'] false true (trimPattern Machine ['?'] ['?'] false true) := by
  refine ⟨by decide, fun trimmed => ?_⟩
  rw [trimPattern_eq_trimBelow, trimBelow_length_iff] at trimmed
  revert trimmed
  simp only [EndIrrelevant]
  decide

end Mrsh
