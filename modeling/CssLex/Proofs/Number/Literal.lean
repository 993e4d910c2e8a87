import CssLex.Number.Literal
import CssLex.Proofs.Scan.Settled

namespace CssLex.Literal

open CssLex.Scan

variable {text : Bytes}

private theorem afterDigits_eq (text : Bytes) : afterDigits text = text.drop (digitsLength text) := by
  induction text with
  | nil => rfl
  | cons b rest ih =>
    rw [afterDigits, digitsLength, runLength, List.dropWhile_cons, List.takeWhile_cons]
    split
    · exact ih
    · rfl

theorem isEmpty_digits (text : Bytes) : (digits text).isEmpty = !begins Byte.isDigit text := by
  cases text with
  | nil => rfl
  | cons b rest =>
    rw [digits, begins, List.takeWhile_cons]
    cases Byte.isDigit b <;> rfl

private theorem splitSign_rest (text : Bytes) : (splitSign text).2 = text.drop (signLength text) := by
  cases text with
  | nil => rfl
  | cons b rest =>
    rw [splitSign, signLength, begins]
    cases Byte.isSign b <;> rfl

private theorem splitFraction_eq (text : Bytes) : (splitFraction text).2 = text.drop (fractionLength text) ∧
    ((splitFraction text).1.isEmpty = true ↔ fractionLength text = 0) := by
  cases text with
  | nil => exact ⟨rfl, iff_of_true rfl rfl⟩
  | cons b rest =>
    rw [splitFraction, fractionLength, isEmpty_digits, Bool.not_not]
    split
    · rename_i point
      rw [Nat.add_comm, List.drop_succ_cons]
      rw [Bool.and_eq_true] at point
      rw [isEmpty_digits, point.2]
      exact ⟨afterDigits_eq rest, iff_of_false Bool.false_ne_true (Nat.succ_ne_zero _)⟩
    · exact ⟨rfl, iff_of_true rfl rfl⟩

private theorem splitPower_rest (text : Bytes) : (splitPower text).2.2 = text.drop (exponentLength text) := by
  cases text with
  | nil => rfl
  | cons b rest =>
    rw [splitPower, exponentLength, ← splitSign_rest]
    dsimp only
    rw [isEmpty_digits, Bool.not_not]
    split
    · rw [Nat.add_assoc, Nat.add_comm, List.drop_succ_cons, ← List.drop_drop, ← splitSign_rest]
      exact afterDigits_eq _
    · rfl

/-- A literal is split off where a number begins, and up to where it ends. -/
theorem split?_rest (text : Bytes) :
    (split? text).map Prod.snd = if beginsNumber text then some (text.drop (numberLength text)) else none := by
  rcases sign : splitSign text with ⟨negative, unsigned⟩
  rcases point : splitFraction (afterDigits unsigned) with ⟨fraction, unscaled⟩
  rcases mark : splitPower unscaled with ⟨powerNegative, power, rest⟩
  have behindSign : unsigned = text.drop (signLength text) := by rw [← splitSign_rest, sign]
  have behindPoint := splitFraction_eq (afterDigits unsigned)
  have behindPower := splitPower_rest unscaled
  rw [point, afterDigits_eq] at behindPoint
  rw [mark] at behindPower
  dsimp only at behindPoint behindPower
  have some : beginsNumber text = true ↔ ¬((digits unsigned).isEmpty && fraction.isEmpty) = true := by
    rw [beginsNumber_eq, beginsUnsigned_iff, ← behindSign, Bool.and_eq_true, behindPoint.2, isEmpty_digits,
      Bool.not_eq_true', ← Bool.not_eq_true, ← digitsLength_pos_iff]
    omega
  have whole : text.drop (numberLength text) = rest := by
    rw [behindPower, behindPoint.1, behindSign]
    unfold numberLength mantissaLength wholeLength
    simp only [List.drop_drop, Nat.add_assoc]
  unfold split?
  rw [sign]
  dsimp only
  rw [point]
  dsimp only
  rw [mark, whole]
  by_cases number : beginsNumber text = true
  · rw [if_pos number, if_neg (some.mp number)]
    rfl
  · rw [if_neg number, if_pos (Decidable.not_not.mp (mt some.mpr number))]
    rfl

/-- The number at the front of a text has the length that was scanned. -/
theorem length_eq (text : Bytes) : length text = if beginsNumber text then numberLength text else 0 := by
  have rest := split?_rest text
  have fits := numberLength_le text
  rw [length]
  split
  · rename_i literal left same
    rw [same, Option.map_some] at rest
    split at rest
    · rename_i number
      obtain rfl := Option.some.inj rest
      rw [if_pos number, List.length_drop]
      omega
    · cases rest
  · rename_i none
    rw [none, Option.map_none] at rest
    split at rest
    · cases rest
    · rename_i number
      rw [if_neg number]

/-- A text is a literal if a number reaches over all of it. -/
theorem isNumber_iff : isNumber text = true ↔ beginsNumber text = true ∧ numberLength text = text.length := by
  have rest := split?_rest text
  have fits := numberLength_le text
  rw [isNumber, ofBytes?]
  split
  · rename_i literal same
    rw [same, Option.map_some] at rest
    split at rest
    · rename_i number
      have none := List.drop_eq_nil_iff.mp (Option.some.inj rest).symm
      exact iff_of_true rfl ⟨number, by omega⟩
    · cases rest
  · rename_i other
    refine iff_of_false Bool.false_ne_true ?_
    rintro ⟨number, all⟩
    rw [if_pos number, all, List.drop_length] at rest
    obtain ⟨⟨literal, left⟩, same, rfl⟩ := Option.map_eq_some_iff.mp rest
    exact other literal same

/-- A number is the same in each text that holds all of it. -/
theorem take_number {bytes : Bytes} (number : beginsNumber bytes = true) {n : Nat} (all : numberLength bytes ≤ n) :
    beginsNumber (bytes.take n) = true ∧ numberLength (bytes.take n) = numberLength bytes := by
  have fits : numberLength (bytes.take n ++ bytes.drop n) ≤ (bytes.take n).length := by
    have inside := numberLength_le bytes
    rw [List.take_append_drop, List.length_take]
    omega
  have begun := beginsNumber_of_append fits
  have same := numberLength_of_append fits
  rw [List.take_append_drop] at begun same
  exact ⟨begun number, same⟩

/-- What a number takes of a text is a literal. -/
theorem isNumber_take {bytes : Bytes} (number : beginsNumber bytes = true) :
    isNumber (bytes.take (numberLength bytes)) = true := by
  obtain ⟨begun, same⟩ := take_number number (Nat.le_refl _)
  have fits := numberLength_le bytes
  rw [isNumber_iff, same, List.length_take]
  exact ⟨begun, by omega⟩

theorem length_take {bytes : Bytes} (number : beginsNumber bytes = true) {n : Nat} (all : numberLength bytes ≤ n) :
    length (bytes.take n) = numberLength bytes := by
  obtain ⟨begun, same⟩ := take_number number all
  rw [length_eq, if_pos begun, same]

private theorem ascii_take_add {bytes : Bytes} {m n : Nat} (first : ∀ c ∈ bytes.take m, c < 0x80)
    (second : ∀ c ∈ (bytes.drop m).take n, c < 0x80) : ∀ c ∈ bytes.take (m + n), c < 0x80 := by
  intro c member
  rw [List.take_add, List.mem_append] at member
  exact member.elim (first c) (second c)

private theorem ascii_digits (bytes : Bytes) : ∀ c ∈ bytes.take (digitsLength bytes), c < 0x80 := by
  have ascii : ∀ c, Byte.isDigit c = true → c < 0x80 := by decide +kernel
  induction bytes with
  | nil => simp
  | cons b rest ih =>
    rw [digitsLength, runLength, List.takeWhile_cons]
    cases digit : Byte.isDigit b with
    | true => exact List.forall_mem_cons.mpr ⟨ascii b digit, ih⟩
    | false => simp

private theorem ascii_sign (bytes : Bytes) : ∀ c ∈ bytes.take (signLength bytes), c < 0x80 := by
  have ascii : ∀ c, Byte.isSign c = true → c < 0x80 := by decide +kernel
  cases bytes with
  | nil => simp
  | cons b rest =>
    rw [signLength]
    split
    · rename_i sign
      exact List.forall_mem_singleton.mpr (ascii b sign)
    · simp

private theorem ascii_fraction (bytes : Bytes) : ∀ c ∈ bytes.take (fractionLength bytes), c < 0x80 := by
  cases bytes with
  | nil => simp
  | cons b rest =>
    rw [fractionLength]
    split
    · rename_i point
      rw [Bool.and_eq_true, beq_iff_eq] at point
      refine ascii_take_add (List.forall_mem_singleton.mpr ?_) (ascii_digits rest)
      rw [point.1]
      decide
    · simp

private theorem ascii_exponent (bytes : Bytes) : ∀ c ∈ bytes.take (exponentLength bytes), c < 0x80 := by
  have ascii : ∀ c, Byte.isExponentMark c = true → c < 0x80 := by decide +kernel
  cases bytes with
  | nil => simp
  | cons b rest =>
    rw [exponentLength]
    split
    · rename_i mark
      rw [Bool.and_eq_true] at mark
      rw [Nat.add_assoc]
      refine ascii_take_add (List.forall_mem_singleton.mpr (ascii b mark.1)) ?_
      exact ascii_take_add (ascii_sign rest) (ascii_digits _)
    · simp

/-- A literal is made of ASCII bytes. -/
theorem ascii_of_isNumber (number : isNumber text = true) : ∀ c ∈ text, c < 0x80 := by
  have whole : ∀ c ∈ text.take (numberLength text), c < 0x80 := by
    refine ascii_take_add (ascii_take_add (ascii_take_add ?_ ?_) ?_) ?_
    · exact ascii_sign text
    · exact ascii_digits _
    · exact ascii_fraction _
    · exact ascii_exponent _
  rwa [(isNumber_iff.mp number).2, List.take_length] at whole

end CssLex.Literal
