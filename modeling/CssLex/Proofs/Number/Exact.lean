import CssLex.Proofs.Number.Grammar
import CssLex.Proofs.Number.Rounding

namespace CssLex

namespace Literal

open Binary64

variable {l : Literal} {text digits : Bytes}

private theorem natural_concat (digits : Bytes) (b : UInt8) :
    natural (digits ++ [b]) = 10 * natural digits + Byte.digitValue b := by
  rw [natural, List.foldl_append]
  rfl

private theorem limitedNatural_concat (digits : Bytes) (b : UInt8) : limitedNatural (digits ++ [b]) =
    if limitedNatural digits < powerLimit then 10 * limitedNatural digits + Byte.digitValue b
    else limitedNatural digits := by
  rw [limitedNatural, List.foldl_append]
  rfl

private theorem natural_lt (all : ∀ b ∈ digits, Byte.isDigit b = true) : natural digits < 10 ^ digits.length := by
  have nine : ∀ {b}, Byte.isDigit b = true → Byte.digitValue b ≤ 9 := by decide +kernel
  induction digits using List.reverseRecOn with
  | nil => decide
  | append_singleton digits b ih =>
    simp only [List.forall_mem_append, List.forall_mem_singleton] at all
    have less := ih all.1
    have last := nine all.2
    rw [natural_concat, List.length_append, List.length_singleton, Nat.pow_succ]
    omega

/-- An exponent is read in full, or it is great, read in full or not. -/
private theorem limitedNatural_cases (digits : Bytes) : limitedNatural digits = natural digits ∨
    powerLimit ≤ limitedNatural digits ∧ powerLimit ≤ natural digits := by
  induction digits using List.reverseRecOn with
  | nil => exact .inl rfl
  | append_singleton digits b ih =>
    rw [limitedNatural_concat, natural_concat]
    split
    · rename_i small
      left
      rw [ih.resolve_right fun great => Nat.not_le.mpr small great.1]
    · right
      omega

/-- What is written as digits are digits. -/
private theorem Written.isDigit (written : Written l text) : ∀ b ∈ l.whole ++ l.fraction, Byte.isDigit b = true := by
  cases written with
  | intro _ pointed _ =>
    rw [List.forall_mem_append]
    cases pointed with
    | whole some => exact ⟨(Grammar.mem_digits.mp some).2, nofun⟩
    | point all some => exact ⟨Grammar.mem_one_add_digits.mp all, (Grammar.mem_digits.mp some).2⟩

/-- The exponent, with all of its digits, of the digits as one integer. -/
def scale (l : Literal) : ℤ :=
  (if l.powerNegative then -(natural l.power : ℤ) else natural l.power) - l.fraction.length

/-- The exact value without the sign. -/
def magnitude (l : Literal) : ℚ := natural (l.whole ++ l.fraction) * 10 ^ l.scale

/-- The exact value. -/
def value (l : Literal) : ℚ := if l.negative then -l.magnitude else l.magnitude

/-- A literal is read as the number nearest to its exact value. -/
def Rounded (l : Literal) : Prop := Nearest l.magnitude l.toBinary64.magnitude

theorem magnitude_nonneg (l : Literal) : 0 ≤ l.magnitude := by
  rw [magnitude]
  positivity

theorem abs_value (l : Literal) : |l.value| = l.magnitude := by
  rw [value]
  split
  · rw [abs_neg, abs_of_nonneg l.magnitude_nonneg]
  · exact abs_of_nonneg l.magnitude_nonneg

theorem value_of_digits {n : Nat} {e : ℤ} (digits : natural (l.whole ++ l.fraction) = n) (scale : l.scale = e) :
    l.value = if l.negative then -(n * 10 ^ e : ℚ) else n * 10 ^ e := by
  rw [value, magnitude, digits, scale]

theorem toBinary64_negative (l : Literal) : l.toBinary64.negative = l.negative := ofDecimal_negative _ _ _

/-- A literal is rounded correctly if its exponent is read in full. -/
theorem rounded_of_read (read : limitedNatural l.power = natural l.power) : l.Rounded := by
  have nearest := nearest_ofDecimal l.negative (natural (l.whole ++ l.fraction)) l.scale
  rw [scale, ← read] at nearest
  rw [Rounded, magnitude, scale, ← read]
  exact nearest

/-- Digits that do not make up for a small exponent leave zero. -/
private theorem mul_pow_le_midway_zero {n k : Nat} {e : ℤ} (less : n < 10 ^ k) (small : k + e ≤ -400) :
    (n : ℚ) * 10 ^ e ≤ midway 0 := by
  have few : (n : ℚ) ≤ 10 ^ (k : ℤ) := by
    rw [zpow_natCast]
    exact_mod_cast less.le
  have one : Nat.log2 1 = 0 := by decide
  calc (n : ℚ) * 10 ^ e ≤ 10 ^ (k : ℤ) * 10 ^ e := by gcongr
    _ = (1 : ℕ) * 10 ^ (k + e) := by rw [← zpow_add₀ (by norm_num), Nat.cast_one, one_mul]
    _ ≤ midway 0 := le_midway_zero (by rw [one]; omega)

/-- Fewer than 65000 digits are rounded correctly. An exponent that is not read in full leaves zero or infinity of them
either way. -/
theorem rounded_of_few (literal : ofBytes? text = some l) (few : (l.whole ++ l.fraction).length < 65000) :
    l.Rounded := by
  rcases limitedNatural_cases l.power with read | ⟨limited, great⟩
  · exact rounded_of_read read
  have less := natural_lt (ofBytes?_eq_some_iff.mp literal).isDigit
  have nearest : Nearest (natural (l.whole ++ l.fraction) * 10 ^ (l.exponent - l.fraction.length))
    l.toBinary64.magnitude := nearest_ofDecimal _ _ _
  have inside : l.fraction.length ≤ (l.whole ++ l.fraction).length := by simp
  rw [Rounded, magnitude]
  rw [exponent] at nearest
  rw [scale]
  generalize natural (l.whole ++ l.fraction) = n at *
  generalize (l.whole ++ l.fraction).length = length at *
  rw [powerLimit] at limited great
  by_cases small : l.powerNegative = true
  · rw [if_pos small] at nearest ⊢
    rw [nearest.eq_zero_iff.mpr (mul_pow_le_midway_zero less (by omega))]
    exact nearest_zero (by positivity) (mul_pow_le_midway_zero less (by omega))
  · rw [if_neg small] at nearest ⊢
    rcases Nat.eq_zero_or_pos n with zero | some
    · rw [zero, Nat.cast_zero, zero_mul] at nearest ⊢
      exact nearest
    · rw [nearest.eq_infinityBits (infinity_le some (by omega))]
      exact nearest_infinity (infinity_le some (by omega))

end Literal
end CssLex
