import Mathlib.Data.Nat.Log
import Mathlib.Tactic.Ring

namespace Mrsh.Data

/-! # Integers in a binary floating-point format

The integers that a number with so many bits of precision holds exactly, and the
one that is nearest to an integer, an even one where two are equally near. The
exponent is not bounded.
-/

/-- The integer is a number of the format. -/
def Representable (precision : Nat) (value : Int) : Prop :=
  ∃ (mantissa : Int) (exponent : Nat), mantissa.natAbs < 2 ^ precision ∧ value = mantissa * 2 ^ exponent

/-- The distance of two neighbours at this magnitude. -/
def spacing (precision magnitude : Nat) : Nat := 2 ^ (magnitude.log2 + 1 - precision)

def roundMagnitude (precision magnitude : Nat) : Nat :=
  let unit := spacing precision magnitude
  let below := magnitude / unit
  let rest := magnitude % unit
  if 2 * rest < unit ∨ 2 * rest = unit ∧ below % 2 = 0 then below * unit else (below + 1) * unit

def roundInteger (precision : Nat) (value : Int) : Int :=
  value.sign * roundMagnitude precision value.natAbs

theorem spacing_pos (precision magnitude : Nat) : 0 < spacing precision magnitude := Nat.two_pow_pos _

theorem roundMagnitude_eq_iff (precision magnitude : Nat) :
    roundMagnitude precision magnitude = magnitude ↔ spacing precision magnitude ∣ magnitude := by
  have positive := spacing_pos precision magnitude
  have split := Nat.div_add_mod magnitude (spacing precision magnitude)
  have small := Nat.mod_lt magnitude positive
  rw [Nat.dvd_iff_mod_eq_zero]
  simp only [roundMagnitude]
  generalize magnitude / spacing precision magnitude = below at split
  generalize magnitude % spacing precision magnitude = rest at split small
  generalize spacing precision magnitude = unit at *
  have above : (below + 1) * unit = unit * below + unit := by ring
  have commuted : below * unit = unit * below := by ring
  split
  · omega
  · omega

theorem dvd_of_mantissa {precision mantissa exponent magnitude : Nat} (small : mantissa < 2 ^ precision)
    (value : magnitude = mantissa * 2 ^ exponent) : spacing precision magnitude ∣ magnitude := by
  by_cases zero : magnitude = 0
  · rw [zero]
    exact dvd_zero _
  -- The spacing divides the power of two, as the mantissa would have too many bits otherwise.
  have low : 2 ^ magnitude.log2 ≤ magnitude := Nat.log2_self_le zero
  have high : magnitude < 2 ^ (precision + exponent) := by
    rw [value, Nat.pow_add]
    exact Nat.mul_lt_mul_of_pos_right small (Nat.two_pow_pos exponent)
  have bits : magnitude.log2 < precision + exponent :=
    (Nat.pow_lt_pow_iff_right (by decide)).mp (lt_of_le_of_lt low high)
  have shift : magnitude.log2 + 1 - precision ≤ exponent := by omega
  have divides : spacing precision magnitude ∣ 2 ^ exponent := Nat.pow_dvd_pow 2 shift
  rw [value] at divides ⊢
  exact dvd_mul_of_dvd_right divides mantissa

theorem mantissa_small (precision magnitude : Nat) : magnitude / spacing precision magnitude < 2 ^ precision := by
  rw [Nat.div_lt_iff_lt_mul (spacing_pos precision magnitude), spacing, ← Nat.pow_add]
  have bound : magnitude < 2 ^ (magnitude.log2 + 1) := Nat.lt_log2_self
  have enough : magnitude.log2 + 1 ≤ precision + (magnitude.log2 + 1 - precision) := by omega
  exact lt_of_lt_of_le bound (Nat.pow_le_pow_right (by decide) enough)

theorem representable_iff (precision : Nat) (value : Int) :
    Representable precision value ↔ spacing precision value.natAbs ∣ value.natAbs := by
  constructor
  · rintro ⟨mantissa, exponent, small, same⟩
    have magnitude : value.natAbs = mantissa.natAbs * 2 ^ exponent := by
      rw [same, Int.natAbs_mul, Int.natAbs_pow]
      rfl
    exact dvd_of_mantissa small magnitude
  · intro divides
    refine ⟨value.sign * (value.natAbs / spacing precision value.natAbs : Nat), value.natAbs.log2 + 1 - precision, ?_,
      ?_⟩
    · rw [Int.natAbs_mul, Int.natAbs_natCast]
      have small := mantissa_small precision value.natAbs
      have sign : value.sign.natAbs ≤ 1 := by
        rw [Int.natAbs_sign]
        split <;> omega
      calc value.sign.natAbs * (value.natAbs / spacing precision value.natAbs)
          ≤ 1 * (value.natAbs / spacing precision value.natAbs) := Nat.mul_le_mul_right _ sign
        _ < 2 ^ precision := by rw [one_mul]; exact small
    · have whole : value.natAbs / spacing precision value.natAbs * spacing precision value.natAbs = value.natAbs :=
        Nat.div_mul_cancel divides
      have power : ((spacing precision value.natAbs : Nat) : Int) = 2 ^ (value.natAbs.log2 + 1 - precision) := by
        simp [spacing]
      rw [← power, mul_assoc, ← Nat.cast_mul, whole]
      exact (Int.sign_mul_natAbs value).symm

/-- A number of the format is the nearest one to itself, and no other integer is. -/
theorem roundInteger_eq_iff (precision : Nat) (value : Int) :
    roundInteger precision value = value ↔ Representable precision value := by
  rw [representable_iff, ← roundMagnitude_eq_iff, roundInteger]
  constructor
  · intro same
    by_cases zero : value = 0
    · subst zero
      exact (roundMagnitude_eq_iff precision 0).mpr (dvd_zero _)
    · have sign : value.sign ≠ 0 := by simpa [Int.sign_eq_zero_iff_zero] using zero
      have cancelled : value.sign * roundMagnitude precision value.natAbs = value.sign * value.natAbs := by
        rw [same, Int.sign_mul_natAbs]
      exact Int.natCast_inj.mp (mul_left_cancel₀ sign cancelled)
  · intro same
    rw [same]
    exact Int.sign_mul_natAbs value

end Mrsh.Data
