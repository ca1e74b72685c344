import Mrsh.Text

namespace Mrsh

/-! # Decimal numerals

`strtol` reads back what `%ld` prints, in base ten and where the numeral selects
the base.
-/

theorem isDigit_ne {c d : Char} (digit : c.isDigit = true) (other : d.isDigit = false) : c ≠ d := by
  rintro rfl
  rw [digit] at other
  cases other

theorem isDigit_not_space {c : Char} (digit : c.isDigit = true) : isSpace c = false := by
  have different : ∀ d, d.isDigit = false → (c == d) = false := by
    intro d other
    simpa using isDigit_ne digit other
  simp [isSpace, different]

theorem digitValue_digit {c : Char} (digit : c.isDigit = true) :
    digitValue c = c.toNat - '0'.toNat ∧ digitValue c < 10 := by
  have low : '0'.toNat ≤ c.toNat ∧ c.toNat ≤ '9'.toNat := by
    simpa [Char.isDigit, UInt32.le_iff_toNat_le] using digit
  have value : digitValue c = c.toNat - '0'.toNat := by
    rw [digitValue, if_pos digit]
  have nine : '9'.toNat = '0'.toNat + 9 := rfl
  refine ⟨value, ?_⟩
  rw [value]
  omega

theorem readDigits_digits (digits : Str) (value : Nat) (digit : ∀ c ∈ digits, c.isDigit = true) :
    readDigits 10 value digits = (Nat.ofDigitChars 10 digits value, []) := by
  induction digits generalizing value with
  | nil => rfl
  | cons c digits ih =>
      rw [List.forall_mem_cons] at digit
      obtain ⟨same, small⟩ := digitValue_digit digit.1
      rw [readDigits, if_pos small, ih _ digit.2, Nat.ofDigitChars_cons, same, Nat.mul_comm]

theorem toDigits_start (n : Nat) (positive : 0 < n) : ∃ c rest, Nat.toDigits 10 n = c :: rest ∧ c ≠ '0' := by
  induction n using Nat.strongRecOn with
  | ind n ih =>
      by_cases small : n < 10
      · refine ⟨n.digitChar, [], Nat.toDigits_of_lt_base small, ?_⟩
        match n with
        | 1 | 2 | 3 | 4 | 5 | 6 | 7 | 8 | 9 => decide
      · obtain ⟨c, rest, digits, nonzero⟩ := ih (n / 10) (by omega) (by omega)
        refine ⟨c, rest ++ [(n % 10).digitChar], ?_, nonzero⟩
        rw [Nat.toDigits_of_base_le (by decide) (by omega), digits, List.cons_append]

theorem decimal_natCast (n : Nat) : decimal n = Nat.toDigits 10 n := by
  simp [decimal]

theorem decimal_digits (n : Nat) : ∀ c ∈ decimal n, c.isDigit = true := by
  intro c member
  rw [decimal_natCast] at member
  exact Nat.isDigit_of_mem_toDigits (by decide) (by decide) member

theorem decimal_ne_nil (n : Nat) : decimal n ≠ [] := by
  rw [decimal_natCast]
  exact Nat.toDigits_ne_nil

theorem strtolBase_decimal (n base : Nat) (selects : base = 0 ∨ base = 10) :
    strtolBase base (decimal n) = (10, decimal n) ∨ n = 0 ∧ strtolBase base (decimal n) = (8, decimal n) := by
  rcases Nat.eq_zero_or_pos n with rfl | positive
  · rcases selects with rfl | rfl
    · exact .inr ⟨rfl, rfl⟩
    · exact .inl rfl
  · obtain ⟨c, rest, digits, nonzero⟩ := toDigits_start n positive
    rw [decimal_natCast, digits]
    refine .inl ?_
    rcases selects with rfl | rfl <;> simp [strtolBase, nonzero]

theorem strtol_decimal_clamped (n base : Nat) (selects : base = 0 ∨ base = 10) :
    strtol base (decimal n) = ⟨clampLong n, [], clampLong n != n⟩ := by
  obtain ⟨c, rest, digits⟩ := List.exists_cons_of_ne_nil (decimal_ne_nil n)
  have digit : ∀ d ∈ c :: rest, d.isDigit = true := by
    rw [← digits]
    exact decimal_digits n
  have first : c.isDigit = true := digit c List.mem_cons_self
  have spaces : (c :: rest).dropWhile isSpace = c :: rest := by
    rw [List.dropWhile_cons, isDigit_not_space first]
    rfl
  have noMinus : c ≠ '-' := isDigit_ne first (by decide)
  have noPlus : c ≠ '+' := isDigit_ne first (by decide)
  have value : Nat.ofDigitChars 10 (c :: rest) 0 = n := by
    rw [← digits, decimal_natCast, Nat.ofDigitChars_ten_toDigits]
  rcases strtolBase_decimal n base selects with ten | ⟨rfl, eight⟩
  · rw [digits] at ten ⊢
    have digitFirst : digitValue c < 10 := (digitValue_digit first).2
    have read := readDigits_digits (c :: rest) 0 digit
    rw [value] at read
    simp [strtol, spaces, noMinus, noPlus, ten, digitFirst, read]
  · rcases selects with rfl | rfl <;> rfl

theorem strtol_decimal (n base : Nat) (selects : base = 0 ∨ base = 10) (bounded : (n : Int) ≤ longMax) :
    strtol base (decimal n) = ⟨n, [], false⟩ := by
  have inRange : clampLong n = n := by
    simp only [clampLong, longMin, longMax] at bounded ⊢
    omega
  simp [strtol_decimal_clamped n base selects, inRange]

theorem decimal_negative {value : Int} (negative : value < 0) : decimal value = '-' :: decimal value.natAbs := by
  rw [decimal_natCast, decimal, if_pos negative]

theorem decimal_nonempty (value : Int) : decimal value ≠ [] := by
  rcases Int.lt_or_le value 0 with negative | nonnegative
  · rw [decimal_negative negative]
    exact List.cons_ne_nil _ _
  · obtain ⟨n, rfl⟩ := Int.eq_ofNat_of_zero_le nonnegative
    exact decimal_ne_nil n

theorem decimal_injective {first second : Int} (same : decimal first = decimal second) : first = second := by
  have naturals : ∀ n m : Nat, decimal n = decimal m → n = m := by
    intro n m same
    rw [decimal_natCast, decimal_natCast] at same
    rw [← Nat.ofDigitChars_ten_toDigits (n := n), same, Nat.ofDigitChars_ten_toDigits]
  have unsigned : ∀ (n : Nat) (value : Int), value < 0 → decimal n ≠ decimal value := by
    intro n value negative same
    have digit := decimal_digits n '-' (by rw [same, decimal_negative negative]; exact List.mem_cons_self)
    exact absurd digit (by decide)
  rcases Int.lt_or_le first 0 with firstNegative | firstNonnegative
  · rcases Int.lt_or_le second 0 with secondNegative | secondNonnegative
    · rw [decimal_negative firstNegative, decimal_negative secondNegative] at same
      have sizes := naturals _ _ (List.cons.inj same).2
      omega
    · obtain ⟨m, rfl⟩ := Int.eq_ofNat_of_zero_le secondNonnegative
      exact absurd same.symm (unsigned m first firstNegative)
  · obtain ⟨n, rfl⟩ := Int.eq_ofNat_of_zero_le firstNonnegative
    rcases Int.lt_or_le second 0 with secondNegative | secondNonnegative
    · exact absurd same (unsigned n second secondNegative)
    · obtain ⟨m, rfl⟩ := Int.eq_ofNat_of_zero_le secondNonnegative
      exact congrArg Int.ofNat (naturals n m same)

theorem strtol_decimal_long {value : Int} (low : longMin ≤ value) (high : value ≤ longMax) :
    strtol 10 (decimal value) = ⟨value, [], false⟩ := by
  rcases Int.lt_or_le value 0 with negative | nonnegative
  · have magnitude : 0 < value.natAbs := by omega
    have ten : strtolBase 10 (decimal value.natAbs) = (10, decimal value.natAbs) := by
      rcases strtolBase_decimal value.natAbs 10 (.inr rfl) with ten | ⟨zero, -⟩
      · exact ten
      · omega
    obtain ⟨c, rest, digits⟩ := List.exists_cons_of_ne_nil (decimal_ne_nil value.natAbs)
    have digit : ∀ d ∈ c :: rest, d.isDigit = true := by
      rw [← digits]
      exact decimal_digits value.natAbs
    have digitFirst : digitValue c < 10 := (digitValue_digit (digit c List.mem_cons_self)).2
    have read := readDigits_digits (c :: rest) 0 digit
    have read_value : Nat.ofDigitChars 10 (c :: rest) 0 = value.natAbs := by
      rw [← digits, decimal_natCast, Nat.ofDigitChars_ten_toDigits]
    rw [read_value] at read
    have inRange : clampLong value = value := by
      simp only [clampLong, longMin, longMax] at low high ⊢
      omega
    have signed : -(value.natAbs : Int) = value := by omega
    rw [decimal_negative negative]
    rw [digits] at ten ⊢
    have space : isSpace '-' = false := by decide
    generalize value.natAbs = size at read signed
    simp [strtol, space, ten, digitFirst, read, signed, inRange]
  · obtain ⟨n, rfl⟩ := Int.eq_ofNat_of_zero_le nonnegative
    exact strtol_decimal n 10 (.inr rfl) high

end Mrsh
