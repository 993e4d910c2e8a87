import CssLex.Scan.Name
import CssLex.Token.Basic

namespace CssLex.Scan

def digitsLength (bytes : Bytes) : Nat := runLength Byte.isDigit bytes

def signLength (bytes : Bytes) : Nat := if begins Byte.isSign bytes then 1 else 0

/-- A full stop and the digits after it, of which there is at least one. -/
def fractionLength : Bytes → Nat
  | [] => 0
  | b :: rest => if b == Byte.fullStop && begins Byte.isDigit rest then 1 + digitsLength rest else 0

/-- An exponent mark, an optional sign and at least one digit, so that `1em` is a dimension. -/
def exponentLength : Bytes → Nat
  | [] => 0
  | b :: rest =>
    if Byte.isExponentMark b && begins Byte.isDigit (rest.drop (signLength rest)) then
      1 + signLength rest + digitsLength (rest.drop (signLength rest))
    else 0

/-- The sign and the digits before a fraction. -/
def wholeLength (bytes : Bytes) : Nat := signLength bytes + digitsLength (bytes.drop (signLength bytes))

/-- The part of a number before its exponent. -/
def mantissaLength (bytes : Bytes) : Nat :=
  wholeLength bytes + fractionLength (bytes.drop (wholeLength bytes))

/-- The length of a number where one begins. -/
def numberLength (bytes : Bytes) : Nat :=
  mantissaLength bytes + exponentLength (bytes.drop (mantissaLength bytes))

/-- The token at the start of a number. -/
def numeric (bytes : Bytes) : Token :=
  let number := numberLength bytes
  let rest := bytes.drop number
  if beginsIdent rest then ⟨.dimension, number + nameLength rest⟩
  else if begins (· == Byte.percentSign) rest then ⟨.percentage, number + 1⟩
  else ⟨.number, number⟩

theorem digitsLength_le (bytes : Bytes) : digitsLength bytes ≤ bytes.length := runLength_le _ bytes

theorem signLength_le (bytes : Bytes) : signLength bytes ≤ bytes.length := by
  cases bytes with
  | nil => exact Nat.le_refl 0
  | cons b rest =>
    rw [signLength]
    split <;> simp

theorem fractionLength_le (bytes : Bytes) : fractionLength bytes ≤ bytes.length := by
  cases bytes with
  | nil => exact Nat.le_refl 0
  | cons b rest =>
    have := digitsLength_le rest
    rw [fractionLength, List.length_cons]
    split <;> omega

theorem exponentLength_le (bytes : Bytes) : exponentLength bytes ≤ bytes.length := by
  cases bytes with
  | nil => exact Nat.le_refl 0
  | cons b rest =>
    have sign := signLength_le rest
    have digits := digitsLength_le (rest.drop (signLength rest))
    rw [List.length_drop] at digits
    rw [exponentLength, List.length_cons]
    split <;> omega

theorem wholeLength_le (bytes : Bytes) : wholeLength bytes ≤ bytes.length := by
  have sign := signLength_le bytes
  have digits := digitsLength_le (bytes.drop (signLength bytes))
  rw [List.length_drop] at digits
  unfold wholeLength
  omega

theorem mantissaLength_le (bytes : Bytes) : mantissaLength bytes ≤ bytes.length := by
  have whole := wholeLength_le bytes
  have fraction := fractionLength_le (bytes.drop (wholeLength bytes))
  rw [List.length_drop] at fraction
  unfold mantissaLength
  omega

theorem numberLength_le (bytes : Bytes) : numberLength bytes ≤ bytes.length := by
  have mantissa := mantissaLength_le bytes
  have exponent := exponentLength_le (bytes.drop (mantissaLength bytes))
  rw [List.length_drop] at exponent
  unfold numberLength
  omega

theorem numeric_length_le (bytes : Bytes) : (numeric bytes).length ≤ bytes.length := by
  have number := numberLength_le bytes
  have name := nameLength_le (bytes.drop (numberLength bytes))
  rw [List.length_drop] at name
  unfold numeric
  dsimp only
  split
  · show numberLength bytes + nameLength (bytes.drop (numberLength bytes)) ≤ bytes.length
    omega
  · split
    · rename_i _ percent
      have : bytes.drop (numberLength bytes) ≠ [] := by
        intro empty
        rw [empty] at percent
        exact absurd percent Bool.false_ne_true
      have := List.length_pos_iff.mpr this
      rw [List.length_drop] at this
      show numberLength bytes + 1 ≤ bytes.length
      omega
    · exact number

/-- Without a sign a mantissa is digits and a fraction. -/
theorem mantissaLength_unsigned {bytes : Bytes} (unsigned : signLength bytes = 0) :
    mantissaLength bytes = digitsLength bytes + fractionLength (bytes.drop (digitsLength bytes)) := by
  simp only [mantissaLength, wholeLength, unsigned, List.drop_zero, Nat.zero_add]

/-- A number has at least one byte in front of its exponent: a sign, a digit or a full stop. -/
theorem mantissaLength_pos {bytes : Bytes} (h : beginsNumber bytes = true) : 0 < mantissaLength bytes := by
  cases bytes with
  | nil => exact absurd h Bool.false_ne_true
  | cons b rest =>
    by_cases sign : Byte.isSign b = true
    · have signed : signLength (b :: rest) = 1 := by simp [signLength, begins, sign]
      unfold mantissaLength wholeLength
      omega
    · have unsigned : signLength (b :: rest) = 0 := by simp [signLength, begins, sign]
      rw [mantissaLength_unsigned unsigned]
      by_cases digit : Byte.isDigit b = true
      · have digits : digitsLength (b :: rest) = digitsLength rest + 1 := by
          simp [digitsLength, runLength, digit]
        omega
      · have digits : digitsLength (b :: rest) = 0 := by simp [digitsLength, runLength, digit]
        have point : (b == Byte.fullStop && begins Byte.isDigit rest) = true := by
          simpa [beginsNumber, beginsUnsigned, sign, digit] using h
        have fraction : fractionLength (b :: rest) = 1 + digitsLength rest := by
          rw [fractionLength, if_pos point]
        rw [digits, List.drop_zero, fraction]
        omega

/-- A number has at least one byte. -/
theorem numberLength_pos {bytes : Bytes} (h : beginsNumber bytes = true) : 0 < numberLength bytes := by
  have := mantissaLength_pos h
  unfold numberLength
  omega

theorem numeric_length_pos {bytes : Bytes} (h : beginsNumber bytes = true) : 0 < (numeric bytes).length := by
  have := numberLength_pos h
  unfold numeric
  dsimp only
  split
  · show 0 < numberLength bytes + nameLength (bytes.drop (numberLength bytes))
    omega
  · split
    · show 0 < numberLength bytes + 1
      omega
    · exact this

end CssLex.Scan
