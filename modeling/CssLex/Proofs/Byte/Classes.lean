import CssLex.Byte

namespace CssLex.Byte

/-- A property of all bytes is one of finitely many numbers. -/
instance decidableForall {p : UInt8 → Prop} [DecidablePred p] : Decidable (∀ c, p c) :=
  decidable_of_iff (∀ n : Fin 256, p (.ofFin n)) ⟨fun h c => h c.toFin, fun h n => h (.ofFin n)⟩

variable {c : UInt8}

theorem isWhitespace_of_isNewline (newline : isNewline c = true) : isWhitespace c = true := by
  simp [isWhitespace, newline]

theorem isNameStart_of_isLetter (letter : isLetter c = true) : isNameStart c = true := by
  simp [isNameStart, letter]

theorem isName_of_isNameStart (start : isNameStart c = true) : isName c = true := by
  simp [isName, start]

theorem isName_of_isHexDigit : ∀ {c}, isHexDigit c = true → isName c = true := by
  decide +kernel

/-- Whitespace ends a name and the digits of an escape, and begins no other escape. -/
theorem not_of_isWhitespace : ∀ {c}, isWhitespace c = true →
    isName c = false ∧ isHexDigit c = false ∧ (c == reverseSolidus) = false := by
  decide +kernel

theorem not_isNewline_of_isHexDigit (hex : isHexDigit c = true) : isNewline c = false := by
  refine Bool.eq_false_iff.mpr fun newline => ?_
  obtain ⟨-, other, -⟩ := not_of_isWhitespace (isWhitespace_of_isNewline newline)
  rw [other] at hex
  cases hex

theorem not_isWhitespace_of_isQuote : ∀ {c}, isQuote c = true → isWhitespace c = false := by
  decide +kernel

theorem isSign_of_isDigit : ∀ {c}, isDigit c = true → isSign c = false := by
  decide +kernel

/-- A byte that begins a number by itself begins no other token. -/
theorem not_of_isDigit : ∀ {c}, isDigit c = true → isWhitespace c = false ∧ isQuote c = false ∧ c ≠ numberSign ∧
    c ≠ atSign ∧ c ≠ solidus ∧ c ≠ lessThan ∧ isSign c = false := by
  decide +kernel

/-- A byte that begins a name by itself begins no other token. -/
theorem not_of_isNameStart : ∀ {c}, isNameStart c = true → isWhitespace c = false ∧ isQuote c = false ∧
    c ≠ numberSign ∧ c ≠ atSign ∧ c ≠ solidus ∧ c ≠ lessThan ∧ isSign c = false ∧ isDigit c = false ∧
    c ≠ fullStop ∧ c ≠ hyphen := by
  decide +kernel

theorem not_hyphen_of_isNameStart (start : isNameStart c = true) : (c == hyphen) = false := by
  obtain ⟨-, -, -, -, -, -, -, -, -, other⟩ := not_of_isNameStart start
  exact beq_eq_false_iff_ne.mpr other

end CssLex.Byte
