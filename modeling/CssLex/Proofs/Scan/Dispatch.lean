import CssLex.Proofs.Byte.Classes
import CssLex.Scan.Tokens

namespace CssLex.Scan

variable {c : UInt8} (rest : Bytes)

theorem next_whitespace (blank : Byte.isWhitespace c = true) :
    next (c :: rest) = ⟨.whiteSpace, whitespaceLength rest + 1⟩ := by
  rw [next, if_pos blank]

theorem next_quote (quote : Byte.isQuote c = true) : next (c :: rest) = (quotedRest c rest).extend 1 := by
  simp [next, quote, Byte.not_isWhitespace_of_isQuote quote]

theorem next_punctuation {kind : Kind} (h : Kind.ofPunctuation? c = some kind) : next (c :: rest) = ⟨kind, 1⟩ := by
  unfold Kind.ofPunctuation? at h
  split at h <;> cases h <;> rfl

theorem ofPunctuation?_mem {kind : Kind} (h : Kind.ofPunctuation? c = some kind) :
    kind ∈ [Kind.colon, .semicolon, .comma, .leftSquare, .rightSquare, .leftParenthesis, .rightParenthesis, .leftCurly,
      .rightCurly] := by
  unfold Kind.ofPunctuation? at h
  split at h <;> cases h <;> decide

theorem next_numberSign : next (Byte.numberSign :: rest) =
    if beginsNameItem rest then ⟨.hash, nameLength rest + 1⟩
    else ⟨.delim, charLength (Byte.numberSign :: rest)⟩ := rfl

theorem next_atSign : next (Byte.atSign :: rest) =
    if beginsIdent rest then ⟨.atKeyword, nameLength rest + 1⟩
    else ⟨.delim, charLength (Byte.atSign :: rest)⟩ := rfl

theorem next_plusSign_fullStop (h : c = Byte.plusSign ∨ c = Byte.fullStop) : next (c :: rest) =
    if beginsNumber (c :: rest) then numeric (c :: rest) else ⟨.delim, charLength (c :: rest)⟩ := by
  rcases h with rfl | rfl <;> rfl

theorem next_hyphen : next (Byte.hyphen :: rest) =
    if beginsNumber (Byte.hyphen :: rest) then numeric (Byte.hyphen :: rest)
    else if (utf8 "->").isPrefixOf rest then ⟨.commentClose, 3⟩
    else if beginsIdent (Byte.hyphen :: rest) then identLike (Byte.hyphen :: rest)
    else ⟨.delim, charLength (Byte.hyphen :: rest)⟩ := rfl

theorem next_solidus : next (Byte.solidus :: rest) =
    if begins (· == Byte.asterisk) rest then ⟨.comment, commentRest (rest.drop 1) + 2⟩
    else ⟨.delim, charLength (Byte.solidus :: rest)⟩ := rfl

theorem next_lessThan : next (Byte.lessThan :: rest) =
    if (utf8 "!--").isPrefixOf rest then ⟨.commentOpen, 4⟩
    else ⟨.delim, charLength (Byte.lessThan :: rest)⟩ := rfl

theorem next_reverseSolidus : next (Byte.reverseSolidus :: rest) =
    if beginsEscape (Byte.reverseSolidus :: rest) then identLike (Byte.reverseSolidus :: rest)
    else ⟨.delim, charLength (Byte.reverseSolidus :: rest)⟩ := rfl

theorem next_digit (digit : Byte.isDigit c = true) : next (c :: rest) = numeric (c :: rest) := by
  obtain ⟨blank, quote, sharp, keyword, slash, less, sign⟩ := Byte.not_of_isDigit digit
  have mark : (utf8 "<!--").isPrefixOf (c :: rest) = (Byte.lessThan == c && (utf8 "!--").isPrefixOf rest) := rfl
  simp [next, blank, quote, sharp, keyword, slash, less.symm, sign, beginsNumber, beginsUnsigned, digit, mark]

theorem next_nameStart (start : Byte.isNameStart c = true) : next (c :: rest) = identLike (c :: rest) := by
  obtain ⟨blank, quote, sharp, keyword, slash, less, sign, digit, point, hyphen⟩ := Byte.not_of_isNameStart start
  have mark : (utf8 "<!--").isPrefixOf (c :: rest) = (Byte.lessThan == c && (utf8 "!--").isPrefixOf rest) := rfl
  have close : (utf8 "-->").isPrefixOf (c :: rest) = (Byte.hyphen == c && (utf8 "->").isPrefixOf rest) := rfl
  simp [next, blank, quote, sharp, keyword, slash, less.symm, sign, beginsNumber, beginsUnsigned, digit, mark, point,
    close, hyphen, hyphen.symm, beginsIdent, start]

/-- A byte that begins nothing else is a delimiter. -/
theorem next_delim (blank : Byte.isWhitespace c = false) (quote : Byte.isQuote c = false)
    (punctuation : Kind.ofPunctuation? c = none) (sharp : c ≠ Byte.numberSign) (keyword : c ≠ Byte.atSign)
    (plus : c ≠ Byte.plusSign) (point : c ≠ Byte.fullStop) (hyphen : c ≠ Byte.hyphen) (slash : c ≠ Byte.solidus)
    (less : c ≠ Byte.lessThan) (backslash : c ≠ Byte.reverseSolidus) (digit : Byte.isDigit c = false)
    (start : Byte.isNameStart c = false) : next (c :: rest) = ⟨.delim, charLength (c :: rest)⟩ := by
  have mark : (utf8 "<!--").isPrefixOf (c :: rest) = (Byte.lessThan == c && (utf8 "!--").isPrefixOf rest) := rfl
  have close : (utf8 "-->").isPrefixOf (c :: rest) = (Byte.hyphen == c && (utf8 "->").isPrefixOf rest) := rfl
  simp [next, blank, quote, punctuation, sharp, keyword, plus, point, hyphen, hyphen.symm, slash, less.symm, backslash,
    digit, start, mark, close, beginsNumber, beginsUnsigned, beginsIdent, beginsEscape, Byte.isSign]

/-- What a first byte says of the token. -/
inductive First (c : UInt8) : Prop where
  | whitespace (blank : Byte.isWhitespace c = true)
  | quote (quote : Byte.isQuote c = true)
  | punctuation {kind : Kind} (single : Kind.ofPunctuation? c = some kind)
  | numberSign (same : c = Byte.numberSign)
  | atSign (same : c = Byte.atSign)
  | plusSign_fullStop (same : c = Byte.plusSign ∨ c = Byte.fullStop)
  | hyphen (same : c = Byte.hyphen)
  | solidus (same : c = Byte.solidus)
  | lessThan (same : c = Byte.lessThan)
  | reverseSolidus (same : c = Byte.reverseSolidus)
  | digit (digit : Byte.isDigit c = true)
  | nameStart (start : Byte.isNameStart c = true)
  | delim (token : ∀ rest, next (c :: rest) = ⟨.delim, charLength (c :: rest)⟩)

theorem first (c : UInt8) : First c := by
  cases blank : Byte.isWhitespace c with
  | true => exact .whitespace blank
  | false =>
  cases quote : Byte.isQuote c with
  | true => exact .quote quote
  | false =>
  cases punctuation : Kind.ofPunctuation? c with
  | some kind => exact .punctuation punctuation
  | none =>
  cases digit : Byte.isDigit c with
  | true => exact .digit digit
  | false =>
  cases start : Byte.isNameStart c with
  | true => exact .nameStart start
  | false =>
  by_cases sharp : c = Byte.numberSign
  · exact .numberSign sharp
  by_cases keyword : c = Byte.atSign
  · exact .atSign keyword
  by_cases plus : c = Byte.plusSign
  · exact .plusSign_fullStop (.inl plus)
  by_cases point : c = Byte.fullStop
  · exact .plusSign_fullStop (.inr point)
  by_cases hyphen : c = Byte.hyphen
  · exact .hyphen hyphen
  by_cases slash : c = Byte.solidus
  · exact .solidus slash
  by_cases less : c = Byte.lessThan
  · exact .lessThan less
  by_cases backslash : c = Byte.reverseSolidus
  · exact .reverseSolidus backslash
  exact .delim fun rest => next_delim rest blank quote punctuation sharp keyword plus point hyphen slash less backslash
    digit start

/-- Every token is one of these constructs. -/
inductive Construct (c : UInt8) (rest : Bytes) : Token → Prop where
  | whitespace (blank : Byte.isWhitespace c = true) : Construct c rest ⟨.whiteSpace, whitespaceLength rest + 1⟩
  | string (quote : Byte.isQuote c = true) : Construct c rest ((quotedRest c rest).extend 1)
  | hash (item : beginsNameItem rest = true) : Construct c rest ⟨.hash, nameLength rest + 1⟩
  | atKeyword (ident : beginsIdent rest = true) : Construct c rest ⟨.atKeyword, nameLength rest + 1⟩
  | comment (star : begins (· == Byte.asterisk) rest = true) :
      Construct c rest ⟨.comment, commentRest (rest.drop 1) + 2⟩
  | commentOpen (mark : (utf8 "<!--").isPrefixOf (c :: rest) = true) : Construct c rest ⟨.commentOpen, 4⟩
  | numeric (number : beginsNumber (c :: rest) = true) : Construct c rest (numeric (c :: rest))
  | commentClose (mark : (utf8 "-->").isPrefixOf (c :: rest) = true) : Construct c rest ⟨.commentClose, 3⟩
  | identLike (ident : beginsIdent (c :: rest) = true) : Construct c rest (identLike (c :: rest))
  | punctuation {kind : Kind} (single : Kind.ofPunctuation? c = some kind) : Construct c rest ⟨kind, 1⟩
  | delim (ident : beginsIdent (c :: rest) = false) : Construct c rest ⟨.delim, charLength (c :: rest)⟩

theorem construct (c : UInt8) (rest : Bytes) : Construct c rest (next (c :: rest)) := by
  rw [next]
  split
  case isTrue blank => exact .whitespace blank
  split
  case isTrue quote => exact .string quote
  split
  case isTrue item => exact .hash (Bool.and_eq_true _ _ ▸ item).2
  split
  case isTrue ident => exact .atKeyword (Bool.and_eq_true _ _ ▸ ident).2
  split
  case isTrue star => exact .comment (Bool.and_eq_true _ _ ▸ star).2
  split
  case isTrue mark => exact .commentOpen mark
  split
  case isTrue number => exact .numeric number
  split
  case isTrue mark => exact .commentClose mark
  split
  case isTrue ident => exact .identLike ident
  rename_i ident
  split
  · exact .punctuation ‹_›
  · exact .delim (Bool.eq_false_iff.mpr ident)

end CssLex.Scan
