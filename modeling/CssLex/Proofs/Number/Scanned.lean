import CssLex.Proofs.Buffer.Boundaries
import CssLex.Proofs.Number.Literal

namespace CssLex

namespace Scan

variable {c : UInt8} {bytes rest : Bytes}

/-- What a token that begins with a number is made of, by its kind. -/
structure Numbered (bytes : Bytes) (token : Token) : Prop where
  number : token.kind = .number → beginsNumber bytes = true ∧ token.length = numberLength bytes
  percentage : token.kind = .percentage → beginsNumber bytes = true ∧
    begins (· == Byte.percentSign) (bytes.drop (numberLength bytes)) = true ∧ token.length = numberLength bytes + 1
  dimension : token.kind = .dimension → beginsNumber bytes = true ∧
    beginsIdent (bytes.drop (numberLength bytes)) = true ∧
    token.length = numberLength bytes + nameLength (bytes.drop (numberLength bytes))

private theorem numbered_next (c : UInt8) (rest : Bytes) : Numbered (c :: rest) (next (c :: rest)) := by
  by_cases number : beginsNumber (c :: rest) = true
  · rw [next_of_beginsNumber number]
    rcases numeric_cases (c :: rest) with ⟨ident, same⟩ | ⟨sign, same⟩ | ⟨-, -, same⟩ <;> rw [same]
    · exact ⟨nofun, nofun, fun _ => ⟨number, ident, rfl⟩⟩
    · exact ⟨nofun, fun _ => ⟨number, sign, rfl⟩, nofun⟩
    · exact ⟨fun _ => ⟨number, rfl⟩, nofun, nofun⟩
  · have made := made c rest
    refine ⟨?_, ?_, ?_⟩ <;> intro kind <;> simp only [Made, kind] at made <;> exact absurd made.1 number

/-- A text that is a literal has no other token, and no other text is a single number. -/
theorem tokens_number_iff : tokens bytes = [⟨.number, bytes.length⟩] ↔ Literal.isNumber bytes = true := by
  rw [Literal.isNumber_iff, tokens_single_iff rfl]
  constructor
  · rintro ⟨some, first⟩
    obtain ⟨c, rest, rfl⟩ := List.exists_cons_of_ne_nil some
    have numbered := numbered_next c rest
    rw [first] at numbered
    obtain ⟨number, all⟩ := numbered.number rfl
    exact ⟨number, all.symm⟩
  · rintro ⟨number, all⟩
    cases bytes with
    | nil => cases number
    | cons c rest =>
      refine ⟨by simp, ?_⟩
      rw [next_of_beginsNumber number, numeric, all, List.drop_length]
      rfl

/-- Where an identifier begins and no end mark, there is a name. -/
theorem next_of_beginsIdent (ident : beginsIdent (c :: rest) = true)
    (mark : (utf8 "-->").isPrefixOf (c :: rest) = false) : next (c :: rest) = identLike (c :: rest) := by
  by_cases start : Byte.isNameStart c = true
  · exact next_nameStart rest start
  by_cases hyphen : c = Byte.hyphen
  · subst hyphen
    have number : beginsNumber (Byte.hyphen :: rest) = false := by
      have other : ∀ {d}, (Byte.isNameStart d || d == Byte.hyphen || d == Byte.reverseSolidus) = true →
          Byte.isDigit d = false ∧ (d == Byte.fullStop) = false := by decide +kernel
      have sign : Byte.isSign Byte.hyphen = true := by decide
      rw [beginsIdent, if_pos (by decide)] at ident
      rw [beginsNumber, if_pos sign]
      cases rest with
      | nil => rfl
      | cons d rest =>
        obtain ⟨digit, point⟩ : Byte.isDigit d = false ∧ (d == Byte.fullStop) = false := by
          apply other
          rw [begins, beginsEscape] at ident
          cases backslash : d == Byte.reverseSolidus <;> simp_all
        rw [beginsUnsigned, digit, point]
        rfl
    have close : (utf8 "->").isPrefixOf rest = false := mark
    rw [next_hyphen, number, close, ident]
    rfl
  · have escape : beginsEscape (c :: rest) = true := by
      simpa [beginsIdent, hyphen, start] using ident
    obtain rfl : c = Byte.reverseSolidus := by
      rw [beginsEscape, Bool.and_eq_true, beq_iff_eq] at escape
      exact escape.1
    rw [next_reverseSolidus, if_pos escape]

/-- A name stops in front of the last byte of an end mark. -/
theorem drop_nameLength_of_mark (mark : (utf8 "-->").isPrefixOf bytes = true) :
    begins (· == Byte.greaterThan) (bytes.drop (nameLength bytes)) = true := by
  obtain ⟨more, rfl⟩ := List.isPrefixOf_iff_prefix.mp mark
  have close : utf8 "-->" = [Byte.hyphen, Byte.hyphen, Byte.greaterThan] := by decide
  have name : Byte.isName Byte.hyphen = true := by decide
  have stop : Byte.isName Byte.greaterThan = false ∧ (Byte.greaterThan == Byte.reverseSolidus) = false := by decide
  rw [close]
  simp [nameLength, name, stop, beginsEscape, begins]

/-- A name by itself is an identifier. -/
theorem tokens_name (ident : beginsIdent bytes = true) (all : nameLength bytes = bytes.length) :
    tokens bytes = [⟨.ident, bytes.length⟩] := by
  have mark : (utf8 "-->").isPrefixOf bytes = false := by
    refine Bool.eq_false_iff.mpr fun mark => ?_
    have stop := drop_nameLength_of_mark mark
    rw [all, List.drop_length] at stop
    cases stop
  cases bytes with
  | nil => cases ident
  | cons c rest =>
    rw [tokens_single_iff rfl]
    refine ⟨by simp, ?_⟩
    rw [next_of_beginsIdent ident mark, identLike, all, List.drop_length, nameWith, Token.extend, Nat.zero_add]

/-- What a name takes of a text is an identifier by itself. -/
private theorem tokens_take_name (ident : beginsIdent bytes = true) :
    tokens (bytes.take (nameLength bytes)) = [⟨.ident, nameLength bytes⟩] := by
  have fits := nameLength_le bytes
  have length : (bytes.take (nameLength bytes)).length = nameLength bytes := by
    rw [List.length_take, Nat.min_eq_left fits]
  have inside : nameLength (bytes.take (nameLength bytes) ++ bytes.drop (nameLength bytes)) ≤
      (bytes.take (nameLength bytes)).length := by
    rw [List.take_append_drop, length]
  have begun := beginsIdent_of_append inside
  have same := nameLength_of_append inside
  rw [List.take_append_drop] at begun same
  have single := tokens_name (begun ident) (same.trans length.symm)
  rwa [length] at single

private theorem isNumber_of_number (kind : (next (c :: rest)).kind = .number) :
    Literal.isNumber ((c :: rest).take (next (c :: rest)).length) = true := by
  obtain ⟨number, all⟩ := (numbered_next c rest).number kind
  rw [all]
  exact Literal.isNumber_take number

theorem isNumber_of_percentage (kind : (next (c :: rest)).kind = .percentage) :
    ∃ number, (c :: rest).take (next (c :: rest)).length = number ++ [Byte.percentSign] ∧
      Literal.isNumber number = true := by
  obtain ⟨number, sign, all⟩ := (numbered_next c rest).percentage kind
  refine ⟨_, ?_, Literal.isNumber_take number⟩
  rw [all, List.take_add]
  cases left : (c :: rest).drop (numberLength (c :: rest)) with
  | nil =>
    rw [left] at sign
    cases sign
  | cons d more =>
    rw [left, begins, beq_iff_eq] at sign
    rw [sign]
    rfl

/-- The text of a dimension is the number that was scanned and a name. -/
theorem split_of_dimension (kind : (next (c :: rest)).kind = .dimension) {text : Bytes}
    (same : text = (c :: rest).take (next (c :: rest)).length) :
    beginsNumber (c :: rest) = true ∧ Literal.length text = numberLength (c :: rest) ∧
      Literal.length text < text.length ∧
      tokens (text.drop (Literal.length text)) = [⟨.ident, text.length - Literal.length text⟩] := by
  obtain ⟨number, ident, all⟩ := (numbered_next c rest).dimension kind
  have fits := next_length_le (c :: rest)
  rw [all] at same fits
  have name := nameLength_pos (beginsNameItem_of_beginsIdent ident)
  have length : text.length =
      numberLength (c :: rest) + nameLength ((c :: rest).drop (numberLength (c :: rest))) := by
    rw [same, List.length_take, Nat.min_eq_left fits]
  have front : Literal.length text = numberLength (c :: rest) := by
    rw [same]
    exact Literal.length_take number (Nat.le_add_right _ _)
  refine ⟨number, front, by omega, ?_⟩
  rw [front, length, Nat.add_sub_cancel_left, same, List.drop_take, Nat.add_sub_cancel_left]
  exact tokens_take_name ident

end Scan

namespace Buffer

/-- The number in a token at `pos` with the text `text` is the one that is read from the text by itself. -/
structure Measured (b : Buffer) (pos : Nat) (token : Token) (text : Bytes) : Prop where
  number : token.kind = .number → Literal.isNumber text = true
  percentage : token.kind = .percentage →
    ∃ number, text = number ++ [Byte.percentSign] ∧ Literal.isNumber number = true
  /-- A dimension is scanned as a number, and as many bytes as the number takes there are split off the text. -/
  dimension : token.kind = .dimension → 0 < Literal.length text ∧ Literal.length text < text.length ∧
    b.numeric pos = .ok token ∧ b.numberLength pos = .ok (Literal.length text)
  /-- What is left of a dimension is an identifier. -/
  unit : token.kind = .dimension →
    (ofText (Text.ofBytes (text.drop (Literal.length text)))).tokens 0 =
      .ok [⟨.ident, text.length - Literal.length text⟩]

private theorem measured_next {b : Buffer} {pos : Nat} {c : UInt8} {rest : Bytes} (ahead : b.Ahead pos (c :: rest)) :
    b.Measured pos (Scan.next (c :: rest)) ((c :: rest).take (Scan.next (c :: rest)).length) where
  number := Scan.isNumber_of_number
  percentage := Scan.isNumber_of_percentage
  dimension kind := by
    obtain ⟨number, front, more, -⟩ := Scan.split_of_dimension kind rfl
    have some := Scan.numberLength_pos number
    rw [numeric_eq ahead, numberLength_eq ahead, front, Scan.next_of_beginsNumber number]
    rw [front, Scan.next_of_beginsNumber number] at more
    exact ⟨some, more, rfl, rfl⟩
  unit kind := by
    obtain ⟨-, -, -, single⟩ := Scan.split_of_dimension kind rfl
    rw [tokens_start, Text.toBytes_ofBytes, single]

/-- A text is a single number just if it is a literal, and every number, percentage and dimension of a text holds the
number that is read from its own text. -/
theorem scan_numbers (t : Text) :
    ∃ tokens, (ofText t).tokens 0 = .ok tokens ∧
      (tokens = [⟨.number, t.size⟩] ↔ Literal.isNumber t.toBytes = true) ∧
      ∀ (k : Nat) (token : Token), tokens[k]? = some token →
        (ofText t).Measured (Token.total (tokens.take k)) token ((Token.ahead tokens t.toBytes k).take token.length) := by
  refine ⟨Scan.tokens t.toBytes, tokens_start t, ?_, ?_⟩
  · rw [← Text.length_toBytes]
    exact Scan.tokens_number_iff
  · intro k token here
    have fits := Token.total_take_le (Scan.tokens t.toBytes) k
    rw [Scan.total_tokens, Text.length_toBytes] at fits
    have ahead := ahead_ofText t fits
    obtain ⟨c, rest, left, rfl⟩ := Scan.getElem?_tokens here
    rw [left] at ahead
    rw [Token.ahead, left]
    exact measured_next ahead

/-- In `1e-x` the exponent mark begins the unit, because no digit follows. -/
theorem scan_numbers_unit :
    ∃ tokens, (ofText (Text.ofString "1e-x")).tokens 0 = .ok tokens ∧ tokens[0]? = some ⟨.dimension, 4⟩ ∧
      (ofText (Text.ofString "1e-x")).Measured 0 ⟨.dimension, 4⟩ (utf8 "1e-x") ∧ Literal.length (utf8 "1e-x") = 1 := by
  obtain ⟨tokens, scan, -, measured⟩ := scan_numbers (Text.ofString "1e-x")
  have all : (ofText (Text.ofString "1e-x")).tokens 0 = .ok [⟨.dimension, 4⟩] := by decide +kernel
  obtain rfl := Except.ok.inj (scan.symm.trans all)
  exact ⟨_, scan, rfl, measured 0 ⟨.dimension, 4⟩ rfl, by decide +kernel⟩

end Buffer
end CssLex
