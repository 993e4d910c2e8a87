import CssLex.Proofs.Number.Exact
import CssLex.Proofs.Number.Grammar
import CssLex.Value.Recognizer

/-!
The range of a number is checked on its rounded value. Zero and one are even, so what lies between them and the midpoint
to their neighbours counts as zero and as one, the midpoint included (`run_ranges_iff`). For exact values the checks are
therefore not sound (`run_ranges_inexact`), but they are complete (`run_ranges_complete`).
-/

namespace CssLex

namespace Literal

variable {l : Literal}

theorem Rounded.isZero_iff (rounded : l.Rounded) :
    Recognizer.isZero l.toBinary64 = true ↔ |l.value| ≤ 2 ^ (-1075 : ℤ) := by
  rw [abs_value, ← Binary64.midway_zero, ← rounded.eq_zero_iff, Recognizer.isZero, Binary64.order, beq_iff_eq]
  split <;> omega

theorem Rounded.isZeroToOne_iff (rounded : l.Rounded) :
    Recognizer.isZeroToOne l.toBinary64 = true ↔ -2 ^ (-1075 : ℤ) ≤ l.value ∧ l.value ≤ 1 + 2 ^ (-53 : ℤ) := by
  have zero := rounded.eq_zero_iff
  have one := rounded.le_iff_of_even (k := Binary64.one.magnitude) (by decide) (by decide)
  have order : Binary64.one.order = Binary64.one.magnitude := rfl
  have below : (0 : ℚ) < 2 ^ (-1075 : ℤ) := by positivity
  have above : (0 : ℚ) < 2 ^ (-53 : ℤ) := by positivity
  have positive := l.magnitude_nonneg
  rw [Binary64.midway_zero] at zero
  rw [Binary64.midway_one] at one
  rw [Recognizer.isZeroToOne, order, Binary64.order, toBinary64_negative, Bool.and_eq_true, decide_eq_true_eq,
    decide_eq_true_eq, value]
  split
  · have small : -l.magnitude ≤ 1 + 2 ^ (-53 : ℤ) := by linarith
    rw [neg_le_neg_iff, ← zero, and_iff_left small]
    omega
  · have great : -2 ^ (-1075 : ℤ) ≤ l.magnitude := by linarith
    rw [← one, and_iff_right great]
    omega

theorem Rounded.isOneOrGreater_iff (rounded : l.Rounded) :
    Recognizer.isOneOrGreater l.toBinary64 = true ↔ 1 - 2 ^ (-54 : ℤ) ≤ l.value := by
  have one := rounded.lt_iff_of_odd (k := Binary64.one.magnitude - 1) (by decide) (by decide)
  have order : Binary64.one.order = Binary64.one.magnitude := rfl
  have some : 0 < Binary64.one.magnitude := by decide
  have below : (2 : ℚ) ^ (-54 : ℤ) < 1 := by norm_num
  have positive := l.magnitude_nonneg
  rw [Binary64.midway_below_one] at one
  rw [Recognizer.isOneOrGreater, order, Binary64.order, toBinary64_negative, decide_eq_true_eq, value]
  split
  · exact iff_of_false (by omega) (by linarith)
  · rw [← one]
    omega

/-- Zero is read as zero, whatever its sign and its exponent are. -/
private theorem isZero_of_value (zero : l.value = 0) : Recognizer.isZero l.toBinary64 = true := by
  have none : l.magnitude = 0 := by rw [← abs_value, zero, abs_zero]
  have power : (10 : ℚ) ^ l.scale ≠ 0 := by positivity
  rw [magnitude, mul_eq_zero, or_iff_left power, Nat.cast_eq_zero] at none
  rw [toBinary64, none, Binary64.ofDecimal, if_pos rfl, Recognizer.isZero, Binary64.order]
  cases l.negative <;> rfl

end Literal

namespace Recognizer

variable {σ : Type} [Input σ] {input : σ} {c : Component} {l : Literal}

private theorem claimOne_acceptsValue (accept : Binary64 → Bool) (literal : Literal.ofBytes? c.text = some l) :
    (claimOne (acceptsValue accept) (some c)).isSome = accept l.toBinary64 := by
  rw [claimOne_isSome, acceptsValue, Literal.value?, literal, Option.map_some, Option.any_some]

/-- Where a literal comes next, its range is decided by its exact value but for half a spacing at each end. -/
theorem run_ranges_iff (next : Input.peek? input 0 = some c) (literal : Literal.ofBytes? c.text = some l)
    (rounded : l.Rounded) :
    ((numberZeroOne.run input).1 = true ↔ -2 ^ (-1075 : ℤ) ≤ l.value ∧ l.value ≤ 1 + 2 ^ (-53 : ℤ)) ∧
      ((numberOneOrGreater.run input).1 = true ↔ 1 - 2 ^ (-54 : ℤ) ≤ l.value) ∧
      ∀ units, ((dimension units).run input).1 = false →
        (((zeroUnitlessDimension units).run input).1 = true ↔ |l.value| ≤ 2 ^ (-1075 : ℤ)) := by
  simp only [run_fst, next, claim?, claimOne_acceptsValue _ literal, Option.isSome_or]
  refine ⟨rounded.isZeroToOne_iff, rounded.isOneOrGreater_iff, fun units other => ?_⟩
  rw [other, Bool.false_or]
  exact rounded.isZero_iff

/-- In `1.00000000000000000001` a number just above 1 is in the range up to 1. -/
theorem run_ranges_iff_above_one :
    let c := Component.ofText (utf8 "1.00000000000000000001") false
    let l : Literal := ⟨false, utf8 "1", utf8 "00000000000000000001", false, []⟩
    Input.peek? (ComponentInput.ofList [c]) 0 = some c ∧ Literal.ofBytes? c.text = some l ∧ l.Rounded ∧
      l.value = 1 + 10 ^ (-20 : ℤ) ∧ (numberZeroOne.run (ComponentInput.ofList [c])).1 = true := by
  intro c l
  have literal : Literal.ofBytes? c.text = some l := by decide +kernel
  have rounded : l.Rounded := Literal.rounded_of_few literal (by decide)
  have value : l.value = 1 + 10 ^ (-20 : ℤ) := by
    rw [Literal.value_of_digits (n := 100000000000000000001) (e := -20) (by decide +kernel) (by decide +kernel)]
    norm_num [l]
  have least : -2 ^ (-1075 : ℤ) ≤ (0 : ℚ) := neg_nonpos.mpr (by positivity)
  refine ⟨rfl, literal, rounded, value, (run_ranges_iff rfl literal rounded).1.mpr ⟨least.trans ?_, ?_⟩⟩
  · rw [value]
    positivity
  · rw [value]
    norm_num

/-- Numbers above 1 and below 0 count as in the range from 0 to 1, one below 1 as at least 1, and one other than zero as
zero. -/
theorem run_ranges_inexact :
    let recognised := fun (r : Recognizer) (text : String) =>
      (r.run (ComponentInput.ofList [Component.ofText (utf8 text) false])).1
    let read := fun (text : String) => Literal.ofBytes? (utf8 text)
    (∃ l, read "1.00000000000000000001" = some l ∧ l.Rounded ∧ 1 < l.value ∧
      recognised numberZeroOne "1.00000000000000000001" = true) ∧
    (∃ l, read "-1e-400" = some l ∧ l.Rounded ∧ l.value < 0 ∧ recognised numberZeroOne "-1e-400" = true) ∧
    (∃ l, read "0.99999999999999999999" = some l ∧ l.Rounded ∧ l.value < 1 ∧
      recognised numberOneOrGreater "0.99999999999999999999" = true) ∧
    (∃ l, read "1e-400" = some l ∧ l.Rounded ∧ l.value ≠ 0 ∧
      recognised (zeroUnitlessDimension .length) "1e-400" = true) := by
  intro recognised read
  refine ⟨?_, ?_, ?_, ?_⟩
  · refine ⟨⟨false, utf8 "1", utf8 "00000000000000000001", false, []⟩, by decide +kernel, Literal.rounded_of_read rfl, ?_,
      by decide +kernel⟩
    rw [Literal.value_of_digits (n := 100000000000000000001) (e := -20) (by decide +kernel) (by decide +kernel)]
    norm_num
  · refine ⟨⟨true, utf8 "1", [], true, utf8 "400"⟩, by decide +kernel, Literal.rounded_of_read rfl, ?_, by decide +kernel⟩
    rw [Literal.value_of_digits (n := 1) (e := -400) (by decide +kernel) (by decide +kernel), if_pos rfl]
    exact neg_lt_zero.mpr (by positivity)
  · refine ⟨⟨false, utf8 "0", utf8 "99999999999999999999", false, []⟩, by decide +kernel, Literal.rounded_of_read rfl, ?_,
      by decide +kernel⟩
    rw [Literal.value_of_digits (n := 99999999999999999999) (e := -20) (by decide +kernel) (by decide +kernel)]
    norm_num
  · refine ⟨⟨false, utf8 "1", [], true, utf8 "400"⟩, by decide +kernel, Literal.rounded_of_read rfl, ?_, by decide +kernel⟩
    rw [Literal.value_of_digits (n := 1) (e := -400) (by decide +kernel) (by decide +kernel), if_neg Bool.false_ne_true]
    positivity

private theorem claimOne_of_value {accept : Binary64 → Bool} (literal : Literal.ofBytes? c.text = some l)
    (accepted : accept l.toBinary64 = true) : claimOne (acceptsValue accept) (some c) = some 1 := by
  rw [claimOne, acceptsValue, Literal.value?, literal, Option.map_some, Option.any_some, if_pos accepted]

private theorem not_isZero_of_isOneOrGreater {x : Binary64} (great : isOneOrGreater x = true) : isZero x = false := by
  have one : (0 : ℤ) < Binary64.one.order := by decide
  rw [isOneOrGreater, decide_eq_true_eq] at great
  rw [isZero, beq_eq_false_iff_ne]
  omega

/-- Where the next text is a number and its exact value is in a range, it is recognised and taken, if it is rounded
correctly. A zero needs no rounding. No text counts both as at least 1 and as a zero without a unit. -/
theorem run_ranges_complete (next : Input.peek? input 0 = some c) :
    (Literal.isNumber c.text = true → ∃ l, Literal.Written l c.text ∧ Literal.value? c.text = some l.toBinary64 ∧
      (l.Rounded → 0 ≤ l.value → l.value ≤ 1 → numberZeroOne.run input = (true, Input.take input)) ∧
      (l.Rounded → 1 ≤ l.value → numberOneOrGreater.run input = (true, Input.take input)) ∧
      (l.value = 0 → ∀ units, ((zeroUnitlessDimension units).run input).1 = true ∧
        (((dimension units).run input).1 = false →
          (zeroUnitlessDimension units).run input = (true, Input.take input)))) ∧
    ∀ units, ((dimension units).run input).1 = false →
      ¬((numberOneOrGreater.run input).1 = true ∧ ((zeroUnitlessDimension units).run input).1 = true) := by
  have noDimension {units} (other : ((dimension units).run input).1 = false) :
      claimDimension units (some c) (Input.peek? input 1) = none := by
    rwa [run_fst, next, claim?, Option.isSome_eq_false_iff, Option.isNone_iff_eq_none] at other
  constructor
  · intro number
    obtain ⟨l, written⟩ := Literal.isNumber_iff_written.mp number
    have literal := Literal.ofBytes?_eq_some_iff.mpr written
    have half : (0 : ℚ) < 2 ^ (-1075 : ℤ) ∧ (0 : ℚ) < 2 ^ (-53 : ℤ) ∧ (0 : ℚ) < 2 ^ (-54 : ℤ) := by
      refine ⟨?_, ?_, ?_⟩ <;> positivity
    obtain ⟨belowZero, aboveOne, belowOne⟩ := half
    refine ⟨l, written, by rw [Literal.value?, literal, Option.map_some], ?_, ?_, ?_⟩
    · intro rounded least greatest
      apply run_of_claim_one
      rw [next, claim?]
      exact claimOne_of_value literal (rounded.isZeroToOne_iff.mpr ⟨by linarith, by linarith⟩)
    · intro rounded least
      apply run_of_claim_one
      rw [next, claim?]
      exact claimOne_of_value literal (rounded.isOneOrGreater_iff.mpr (by linarith))
    · intro zero units
      have claim := claimOne_of_value literal (Literal.isZero_of_value zero)
      constructor
      · rw [run_fst, next, claim?, claim, Option.isSome_or, Option.isSome_some, Bool.or_true]
      · intro other
        apply run_of_claim_one
        rw [next, claim?, noDimension other, Option.none_or, claim]
  · rintro units other ⟨great, zero⟩
    simp only [run_fst, next, claim?, noDimension other, Option.none_or, claimOne_isSome, acceptsValue,
      Option.any_eq_true] at great zero
    obtain ⟨x, value, great⟩ := great
    obtain ⟨y, same, zero⟩ := zero
    obtain rfl := Option.some.inj (value.symm.trans same)
    rw [not_isZero_of_isOneOrGreater great] at zero
    cases zero

/-- The number in `1e400` is infinity when it is rounded and then still at least 1; the one in `-0e9` is zero. -/
theorem run_ranges_complete_overflow :
    let great := Component.ofText (utf8 "1e400") false
    let zero := Component.ofText (utf8 "-0e9") false
    let l : Literal := ⟨false, utf8 "1", [], false, utf8 "400"⟩
    Input.peek? (ComponentInput.ofList [great]) 0 = some great ∧ Literal.isNumber great.text = true ∧
      Literal.Written l great.text ∧ l.Rounded ∧ 1 ≤ l.value ∧ l.toBinary64 = ⟨false, Binary64.infinityBits⟩ ∧
      numberOneOrGreater.run (ComponentInput.ofList [great]) = (true, ⟨[great], 1⟩) ∧
      Input.peek? (ComponentInput.ofList [zero]) 0 = some zero ∧ Literal.isNumber zero.text = true ∧
      ((dimension .angle).run (ComponentInput.ofList [zero])).1 = false ∧
      (zeroUnitlessDimension .angle).run (ComponentInput.ofList [zero]) = (true, ⟨[zero], 1⟩) := by
  intro great zero l
  have isNumber : Literal.isNumber great.text = true := by decide +kernel
  have isZero : Literal.isNumber zero.text = true := by decide +kernel
  have written : Literal.Written l great.text := Literal.ofBytes?_eq_some_iff.mp (by decide +kernel)
  have rounded : l.Rounded := Literal.rounded_of_read (by decide)
  have one : 1 ≤ l.value := by
    rw [Literal.value_of_digits (n := 1) (e := 400) (by decide +kernel) (by decide +kernel), if_neg Bool.false_ne_true,
      Nat.cast_one, one_mul]
    exact one_le_zpow₀ (by norm_num) (by decide)
  have atGreat : Input.peek? (ComponentInput.ofList [great]) 0 = some great := rfl
  have atZero : Input.peek? (ComponentInput.ofList [zero]) 0 = some zero := rfl
  obtain ⟨complete, -⟩ := run_ranges_complete atGreat
  obtain ⟨k, same, -, -, recognised, -⟩ := complete isNumber
  obtain rfl : k = l := Literal.Written.unique same written
  obtain ⟨complete, -⟩ := run_ranges_complete atZero
  obtain ⟨k, same, -, -, -, unitless⟩ := complete isZero
  have none : k.value = 0 := by
    have negative : Literal.ofBytes? zero.text = some ⟨true, utf8 "0", [], false, utf8 "9"⟩ := by decide +kernel
    rw [same.unique (Literal.ofBytes?_eq_some_iff.mp negative),
      Literal.value_of_digits (n := 0) (e := 9) (by decide +kernel) (by decide +kernel)]
    norm_num
  have other : ((dimension .angle).run (ComponentInput.ofList [zero])).1 = false := by decide +kernel
  exact ⟨atGreat, isNumber, written, rounded, one, by decide +kernel, recognised rounded one, atZero, isZero, other,
    (unitless none .angle).2 other⟩

end Recognizer
end CssLex
