import CssLex.Proofs.Scan.Dispatch

namespace CssLex.Scan

variable {bytes rest : Bytes} {c : UInt8} {n : Nat}

/-- No character beyond ASCII lies on both sides of an offset. -/
inductive CharacterEnd (bytes : Bytes) : Nat → Prop where
  /-- An ASCII byte or the end of input comes next. -/
  | before {n : Nat} (next : ∀ c ∈ bytes[n]?, c < 0x80) : CharacterEnd bytes n
  /-- An ASCII byte was last. -/
  | after {n : Nat} {c : UInt8} (last : bytes[n]? = some c) (ascii : c < 0x80) : CharacterEnd bytes (n + 1)

namespace CharacterEnd

theorem of_drop {k : Nat} (h : CharacterEnd (bytes.drop k) n) : CharacterEnd bytes (k + n) := by
  cases h with
  | before next =>
    rw [List.getElem?_drop] at next
    exact .before next
  | after last ascii =>
    rw [List.getElem?_drop] at last
    exact .after last ascii

private theorem cons (h : CharacterEnd rest n) : CharacterEnd (c :: rest) (n + 1) := by
  rw [Nat.add_comm]
  exact of_drop (k := 1) h

private theorem cons_drop {k : Nat} (h : CharacterEnd (rest.drop k) n) : CharacterEnd (c :: rest) (n + (k + 1)) := by
  rw [Nat.add_comm n, Nat.add_right_comm]
  exact cons (of_drop h)

private theorem nil : CharacterEnd [] n := .before (by simp)

private theorem head (ascii : c < 0x80) : CharacterEnd (c :: rest) 1 := .after rfl ascii

private theorem of_head (ascii : c < 0x80) : CharacterEnd (c :: rest) 0 := .before (by simpa using ascii)

end CharacterEnd

/-- A name stops only in front of what does not go on with it. -/
theorem beginsNameItem_drop_nameLength (bytes : Bytes) : beginsNameItem (bytes.drop (nameLength bytes)) = false := by
  induction bytes using nameLength.induct with
  | case1 => simp [nameLength, beginsNameItem, begins, beginsEscape]
  | case2 c rest name ih =>
    rw [nameLength, if_pos name, List.drop_succ_cons]
    exact ih
  | case3 c rest notName escape ih =>
    rw [nameLength, if_neg notName, if_pos escape, ← Nat.add_assoc, List.drop_succ_cons, Nat.add_comm, ← List.drop_drop]
    exact ih
  | case4 c rest notName noEscape =>
    rw [nameLength, if_neg notName, if_neg noEscape, List.drop_zero]
    simp [beginsNameItem, begins, notName, noEscape]

private theorem ascii_of_not_isName : ∀ {c}, Byte.isName c = false → c < 0x80 := by
  decide +kernel

private theorem nameLength_characterEnd (bytes : Bytes) : CharacterEnd bytes (nameLength bytes) := by
  refine .before fun c here => ascii_of_not_isName ?_
  have stop := beginsNameItem_drop_nameLength bytes
  rw [← Nat.add_zero (nameLength bytes), ← List.getElem?_drop] at here
  cases left : bytes.drop (nameLength bytes) with
  | nil => simp [left] at here
  | cons d rest =>
    obtain rfl : d = c := by simpa [left] using here
    rw [left, beginsNameItem, Bool.or_eq_false_iff] at stop
    exact stop.1

theorem isNameStart_of_not_ascii : ∀ {c}, ¬c < 0x80 → Byte.isNameStart c = true := by
  decide +kernel

/-- A character beyond ASCII begins an identifier. -/
theorem ascii_of_not_beginsIdent (ident : beginsIdent (c :: rest) = false) : c < 0x80 := by
  refine Decidable.byContradiction fun beyond => ?_
  have start := isNameStart_of_not_ascii beyond
  have hyphen := (Byte.not_of_isNameStart start).2.2.2.2.2.2.2.2.2
  simp [beginsIdent, hyphen, start] at ident

private theorem numeric_characterEnd (bytes : Bytes) : CharacterEnd bytes (numeric bytes).length := by
  unfold numeric
  dsimp only
  split
  · exact (nameLength_characterEnd _).of_drop
  rename_i ident
  cases left : bytes.drop (numberLength bytes) with
  | nil =>
    refine CharacterEnd.of_drop (k := numberLength bytes) (n := 0) ?_
    rw [left]
    exact .nil
  | cons c rest =>
    rw [left] at ident
    have ascii := ascii_of_not_beginsIdent (Bool.eq_false_iff.mpr ident)
    split
    · refine CharacterEnd.of_drop ?_
      rw [left]
      exact .head ascii
    · refine CharacterEnd.of_drop (k := numberLength bytes) (n := 0) ?_
      rw [left]
      exact .of_head ascii

theorem ascii_of_isNewline : ∀ {c}, Byte.isNewline c = true → c < 0x80 := by
  decide +kernel

private theorem quotedRest_characterEnd {quote : UInt8} (ascii : quote < 0x80) (bytes : Bytes) :
    CharacterEnd bytes (quotedRest quote bytes).length := by
  induction bytes using quotedRest.induct quote with
  | case1 => exact .nil
  | case2 c rest closing =>
    rw [quotedRest, if_pos closing]
    exact .head (eq_of_beq closing ▸ ascii)
  | case3 c rest notClosing newline =>
    rw [quotedRest, if_neg notClosing, if_pos newline]
    exact .of_head (ascii_of_isNewline newline)
  | case4 c rest notClosing notNewline backslash ih =>
    rw [quotedRest, if_neg notClosing, if_neg notNewline, if_pos backslash]
    exact ih.cons_drop
  | case5 c rest notClosing notNewline notBackslash ih =>
    rw [quotedRest, if_neg notClosing, if_neg notNewline, if_neg notBackslash]
    exact ih.cons

private theorem commentRest_characterEnd (bytes : Bytes) : CharacterEnd bytes (commentRest bytes) := by
  induction bytes using commentRest.induct with
  | case1 => exact .nil
  | case2 c rest closing =>
    rw [commentRest, if_pos closing]
    rw [Bool.and_eq_true] at closing
    cases rest with
    | nil => exact absurd closing.2 Bool.false_ne_true
    | cons d rest =>
      obtain rfl := eq_of_beq closing.2
      exact .cons (.head (by decide))
  | case3 c rest notClosing ih =>
    rw [commentRest, if_neg notClosing]
    exact ih.cons

private theorem badUrlLength_characterEnd (bytes : Bytes) : CharacterEnd bytes (badUrlLength bytes) := by
  induction bytes using badUrlLength.induct with
  | case1 => exact .nil
  | case2 c rest closing =>
    rw [badUrlLength, if_pos closing]
    exact .head (eq_of_beq closing ▸ by decide)
  | case3 c rest notClosing escape ih =>
    rw [badUrlLength, if_neg notClosing, if_pos escape]
    exact ih.cons_drop
  | case4 c rest notClosing noEscape ih =>
    rw [badUrlLength, if_neg notClosing, if_neg noEscape]
    exact ih.cons

private theorem urlEnd_characterEnd (bytes : Bytes) : CharacterEnd bytes (urlEnd bytes).length := by
  cases bytes with
  | nil => exact .nil
  | cons c rest =>
    rw [urlEnd]
    split
    · rename_i closing
      exact .head (eq_of_beq closing ▸ by decide)
    · exact badUrlLength_characterEnd (c :: rest)

private theorem urlRest_characterEnd (bytes : Bytes) : CharacterEnd bytes (urlRest bytes).length := by
  induction bytes using urlRest.induct with
  | case1 => exact .nil
  | case2 c rest closing =>
    rw [urlRest, if_pos closing]
    exact .head (eq_of_beq closing ▸ by decide)
  | case3 c rest notClosing blank =>
    rw [urlRest, if_neg notClosing, if_pos blank]
    exact (urlEnd_characterEnd _).cons_drop
  | case4 c rest notClosing notBlank escape ih =>
    rw [urlRest, if_neg notClosing, if_neg notBlank, if_pos escape]
    exact ih.cons_drop
  | case5 c rest notClosing notBlank noEscape fault =>
    rw [urlRest, if_neg notClosing, if_neg notBlank, if_neg noEscape, if_pos fault]
    exact badUrlLength_characterEnd (c :: rest)
  | case6 c rest notClosing notBlank noEscape plain ih =>
    rw [urlRest, if_neg notClosing, if_neg notBlank, if_neg noEscape, if_neg plain]
    exact ih.cons

private theorem identLike_characterEnd (bytes : Bytes) : CharacterEnd bytes (identLike bytes).length := by
  have name := nameLength_characterEnd bytes
  unfold identLike
  dsimp only
  rw [Token.extend_length, Nat.add_comm]
  cases left : bytes.drop (nameLength bytes) with
  | nil => exact name
  | cons c rest =>
    rw [nameWith]
    split
    · exact name
    rename_i parenthesis
    have ascii : c < 0x80 := by
      rw [bne_iff_ne, Decidable.not_not] at parenthesis
      rw [parenthesis]
      decide
    refine CharacterEnd.of_drop ?_
    rw [left]
    split
    · exact .head ascii
    · exact (urlRest_characterEnd _).cons_drop

theorem ascii_of_isWhitespace : ∀ {c}, Byte.isWhitespace c = true → c < 0x80 := by
  decide +kernel

theorem ascii_of_isQuote : ∀ {c}, Byte.isQuote c = true → c < 0x80 := by
  decide +kernel

private theorem ascii_of_ofPunctuation? {kind : Kind} (single : Kind.ofPunctuation? c = some kind) : c < 0x80 := by
  unfold Kind.ofPunctuation? at single
  split at single <;> cases single <;> decide

theorem width_of_ascii : ∀ {c}, c < 0x80 → Byte.width c = 1 := by
  decide +kernel

private theorem whitespaceLength_characterEnd (ascii : c < 0x80) (rest : Bytes) :
    CharacterEnd (c :: rest) (whitespaceLength rest + 1) := by
  induction rest generalizing c with
  | nil => exact .head ascii
  | cons d rest ih =>
    cases blank : Byte.isWhitespace d with
    | false => simpa [whitespaceLength, runLength, blank] using CharacterEnd.head ascii
    | true =>
      rw [whitespaceLength_cons blank]
      exact (ih (ascii_of_isWhitespace blank)).cons

private theorem characterEnd_of_isPrefixOf (mark : Bytes) (last : UInt8) (ascii : last < 0x80)
    (h : (mark ++ [last]).isPrefixOf bytes = true) : CharacterEnd bytes (mark.length + 1) := by
  obtain ⟨rest, rfl⟩ := List.isPrefixOf_iff_prefix.mp h
  exact .after (by simp) ascii

/-- Each token ends between two characters, also where the scanner steps through them byte by byte: a name takes all
bytes beyond ASCII along, and everything else ends at an ASCII byte or with the input. -/
theorem next_characterEnd (bytes : Bytes) : CharacterEnd bytes (next bytes).length := by
  cases bytes with
  | nil => exact .nil
  | cons c rest =>
    have built := construct c rest
    generalize next (c :: rest) = token at built ⊢
    cases built with
    | whitespace blank => exact whitespaceLength_characterEnd (ascii_of_isWhitespace blank) rest
    | string quote => exact (quotedRest_characterEnd (ascii_of_isQuote quote) rest).cons
    | hash => exact (nameLength_characterEnd rest).cons
    | atKeyword => exact (nameLength_characterEnd rest).cons
    | comment => exact (commentRest_characterEnd (rest.drop 1)).cons_drop
    | commentOpen mark => exact characterEnd_of_isPrefixOf (utf8 "<!-") Byte.hyphen (by decide) mark
    | numeric => exact numeric_characterEnd (c :: rest)
    | commentClose mark => exact characterEnd_of_isPrefixOf (utf8 "--") Byte.greaterThan (by decide) mark
    | identLike => exact identLike_characterEnd (c :: rest)
    | punctuation single => exact .head (ascii_of_ofPunctuation? single)
    | delim ident =>
      have ascii := ascii_of_not_beginsIdent ident
      rw [charLength, width_of_ascii ascii]
      exact .head ascii

end CssLex.Scan
