import CssLex.Proofs.Scan.Lossless

namespace CssLex.Scan

/-- How the token at the front of `c :: rest` was made, by its kind. -/
def Made (c : UInt8) (rest : Bytes) (token : Token) : Prop :=
  match token.kind with
  | .ident | .function | .url | .badUrl => beginsIdent (c :: rest) = true ∧ token = identLike (c :: rest)
  | .atKeyword => c = Byte.atSign ∧ beginsIdent rest = true ∧ token = ⟨.atKeyword, nameLength rest + 1⟩
  | .hash => c = Byte.numberSign ∧ beginsNameItem rest = true ∧ token = ⟨.hash, nameLength rest + 1⟩
  | .string | .badString => Byte.isQuote c = true ∧ token = (quotedRest c rest).extend 1
  | .number | .percentage | .dimension => beginsNumber (c :: rest) = true ∧ token = numeric (c :: rest)
  | .whiteSpace => Byte.isWhitespace c = true ∧ token = ⟨.whiteSpace, whitespaceLength rest + 1⟩
  | .comment => c = Byte.solidus ∧ token = ⟨.comment, commentRest (rest.drop 1) + 2⟩
  | .commentOpen => (utf8 "<!--").isPrefixOf (c :: rest) = true ∧ token = ⟨.commentOpen, 4⟩
  | .commentClose => (utf8 "-->").isPrefixOf (c :: rest) = true ∧ token = ⟨.commentClose, 3⟩
  | .delim => beginsIdent (c :: rest) = false ∧ token = ⟨.delim, charLength (c :: rest)⟩
  | kind => Kind.ofPunctuation? c = some kind ∧ token = ⟨kind, 1⟩

theorem made_string {c : UInt8} (quote : Byte.isQuote c = true) (rest : Bytes) :
    Made c rest ((quotedRest c rest).extend 1) := by
  rcases quotedRest_kind c rest with kind | kind <;> simp [Made, kind, quote]

private theorem made_numeric {c : UInt8} {rest : Bytes} (number : beginsNumber (c :: rest) = true) :
    Made c rest (numeric (c :: rest)) := by
  rcases numeric_kind (c :: rest) with kind | kind | kind <;> simp [Made, kind, number]

private theorem made_identLike {c : UInt8} {rest : Bytes} (ident : beginsIdent (c :: rest) = true) :
    Made c rest (identLike (c :: rest)) := by
  rcases identLike_kind (c :: rest) with kind | kind | kind | kind <;> simp [Made, kind, ident]

private theorem made_punctuation {c : UInt8} {kind : Kind} (single : Kind.ofPunctuation? c = some kind) (rest : Bytes) :
    Made c rest ⟨kind, 1⟩ := by
  have member := ofPunctuation?_mem single
  simp only [List.mem_cons, List.not_mem_nil, or_false] at member
  rcases member with rfl | rfl | rfl | rfl | rfl | rfl | rfl | rfl | rfl <;> exact ⟨single, rfl⟩

/-- Each kind comes from one construct of the grammar. -/
theorem made (c : UInt8) (rest : Bytes) : Made c rest (next (c :: rest)) := by
  rw [next]
  split
  case isTrue blank => exact ⟨blank, rfl⟩
  split
  case isTrue quote => exact made_string quote rest
  split
  case isTrue item =>
    rw [Bool.and_eq_true, beq_iff_eq] at item
    exact ⟨item.1, item.2, rfl⟩
  split
  case isTrue ident =>
    rw [Bool.and_eq_true, beq_iff_eq] at ident
    exact ⟨ident.1, ident.2, rfl⟩
  split
  case isTrue star =>
    rw [Bool.and_eq_true, beq_iff_eq] at star
    exact ⟨star.1, rfl⟩
  split
  case isTrue mark => exact ⟨mark, rfl⟩
  split
  case isTrue number => exact made_numeric number
  split
  case isTrue mark => exact ⟨mark, rfl⟩
  split
  case isTrue ident => exact made_identLike ident
  rename_i ident
  split
  · exact made_punctuation ‹_› rest
  · exact ⟨Bool.eq_false_iff.mpr ident, rfl⟩

/-- A token of one of these kinds begins with a number. -/
theorem numeric_of_kind {c : UInt8} {rest : Bytes} (kind : (next (c :: rest)).kind = .dimension ∨
    (next (c :: rest)).kind = .percentage ∨ (next (c :: rest)).kind = .number) :
    beginsNumber (c :: rest) = true ∧ next (c :: rest) = numeric (c :: rest) := by
  have made := made c rest
  rcases kind with kind | kind | kind <;> simpa only [Made, kind] using made

/-- Where a number begins there is nothing else. -/
theorem next_of_beginsNumber {c : UInt8} {rest : Bytes} (number : beginsNumber (c :: rest) = true) :
    next (c :: rest) = numeric (c :: rest) := by
  by_cases digit : Byte.isDigit c = true
  · exact next_digit rest digit
  have first : c = Byte.hyphen ∨ c = Byte.plusSign ∨ c = Byte.fullStop := by
    by_cases sign : Byte.isSign c = true
    · rw [Byte.isSign, Bool.or_eq_true, beq_iff_eq, beq_iff_eq] at sign
      rcases sign with plus | hyphen
      · exact .inr (.inl plus)
      · exact .inl hyphen
    · have point : c = Byte.fullStop ∧ begins Byte.isDigit rest = true := by
        simpa [beginsNumber, beginsUnsigned, sign, digit] using number
      exact .inr (.inr point.1)
  rcases first with rfl | other
  · rw [next_hyphen, if_pos number]
  · rw [next_plusSign_fullStop rest other, if_pos number]

end CssLex.Scan
