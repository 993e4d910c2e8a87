import CssLex.Proofs.Scan.Kinds
import CssLex.Proofs.Scan.Truncation

/-!
Every construct takes as much as it can, so what stands behind a token could not have been a part of it. `Neighbours`
says for each kind what that excludes, and `next_neighbours` that it is so.
-/

namespace CssLex.Scan

variable {bytes rest : Bytes} {c : UInt8}

private theorem begins_drop_runLength (p : UInt8 → Bool) (bytes : Bytes) :
    begins p (bytes.drop (runLength p bytes)) = false := by
  induction bytes with
  | nil => rfl
  | cons c rest ih =>
    by_cases more : p c = true
    · simpa [runLength, more] using ih
    · simp [runLength, more, begins]

/-- The kinds that only an identifier or a hyphen before another hyphen can begin. -/
def identKinds : List Kind := [.ident, .function, .url, .badUrl, .commentClose]

/-- A number goes on while there are digits. -/
private theorem not_digit_drop_fractionLength (stop : begins Byte.isDigit bytes = false) :
    begins Byte.isDigit (bytes.drop (fractionLength bytes)) = false := by
  cases bytes with
  | nil => rfl
  | cons c rest =>
    rw [fractionLength]
    split
    · rw [Nat.add_comm, List.drop_succ_cons]
      exact begins_drop_runLength Byte.isDigit rest
    · exact stop

private theorem not_digit_drop_exponentLength (stop : begins Byte.isDigit bytes = false) :
    begins Byte.isDigit (bytes.drop (exponentLength bytes)) = false := by
  cases bytes with
  | nil => rfl
  | cons c rest =>
    rw [exponentLength]
    split
    · rw [Nat.add_assoc, Nat.add_comm, List.drop_succ_cons, ← List.drop_drop]
      exact begins_drop_runLength Byte.isDigit _
    · exact stop

private theorem not_digit_drop_numberLength (bytes : Bytes) :
    begins Byte.isDigit (bytes.drop (numberLength bytes)) = false := by
  have whole : begins Byte.isDigit (bytes.drop (wholeLength bytes)) = false := by
    rw [wholeLength, ← List.drop_drop]
    exact begins_drop_runLength Byte.isDigit _
  rw [numberLength, ← List.drop_drop]
  apply not_digit_drop_exponentLength
  rw [mantissaLength, ← List.drop_drop]
  exact not_digit_drop_fractionLength whole

/-- What stands behind a number decides what it is. -/
theorem numeric_cases (bytes : Bytes) :
    (beginsIdent (bytes.drop (numberLength bytes)) = true ∧
        numeric bytes = ⟨.dimension, numberLength bytes + nameLength (bytes.drop (numberLength bytes))⟩) ∨
      (begins (· == Byte.percentSign) (bytes.drop (numberLength bytes)) = true ∧
        numeric bytes = ⟨.percentage, numberLength bytes + 1⟩) ∨
      (beginsIdent (bytes.drop (numberLength bytes)) = false ∧
        begins (· == Byte.percentSign) (bytes.drop (numberLength bytes)) = false ∧
        numeric bytes = ⟨.number, numberLength bytes⟩) := by
  unfold numeric
  dsimp only
  by_cases ident : beginsIdent (bytes.drop (numberLength bytes)) = true
  · simp [ident]
  · by_cases percent : begins (· == Byte.percentSign) (bytes.drop (numberLength bytes)) = true
    · simp [ident, percent]
    · simp [ident, percent]

theorem identLike_ident (kind : (identLike bytes).kind = .ident) :
    (identLike bytes).length = nameLength bytes ∧
      begins (· == Byte.leftParenthesis) (bytes.drop (nameLength bytes)) = false := by
  unfold identLike at kind ⊢
  dsimp only at kind ⊢
  rw [Token.extend_kind] at kind
  rw [Token.extend_length]
  cases left : bytes.drop (nameLength bytes) with
  | nil => simp [nameWith, begins]
  | cons c rest =>
    rw [left, nameWith] at kind
    rw [nameWith]
    by_cases parenthesis : c = Byte.leftParenthesis
    · rw [parenthesis, if_neg (by decide)] at kind
      split at kind
      · cases kind
      · rcases urlRest_kind (rest.drop (whitespaceLength rest)) with url | bad
        · simp [url] at kind
        · simp [bad] at kind
    · simp [begins, parenthesis]

private theorem past_name (name : (next (c :: rest)).kind ∈ [.ident, .atKeyword, .hash, .dimension]) :
    beginsNameItem (past (c :: rest)) = false := by
  have made := made c rest
  simp only [List.mem_cons, List.not_mem_nil, or_false] at name
  unfold past
  rcases name with kind | kind | kind | kind
  · simp only [Made, kind] at made
    rw [made.2] at kind ⊢
    rw [(identLike_ident kind).1]
    exact beginsNameItem_drop_nameLength _
  · simp only [Made, kind] at made
    rw [made.2.2]
    exact beginsNameItem_drop_nameLength rest
  · simp only [Made, kind] at made
    rw [made.2.2]
    exact beginsNameItem_drop_nameLength rest
  · simp only [Made, kind] at made
    rw [made.2] at kind ⊢
    rcases numeric_cases (c :: rest) with ⟨-, same⟩ | ⟨-, same⟩ | ⟨-, -, same⟩
    · rw [same, ← List.drop_drop]
      exact beginsNameItem_drop_nameLength _
    · simp [same] at kind
    · simp [same] at kind

private theorem past_ident (kind : (next (c :: rest)).kind = .ident) :
    begins (· == Byte.leftParenthesis) (past (c :: rest)) = false := by
  have made := made c rest
  simp only [Made, kind] at made
  rw [past]
  rw [made.2] at kind ⊢
  rw [(identLike_ident kind).1]
  exact (identLike_ident kind).2

theorem past_number (kind : (next (c :: rest)).kind = .number) :
    beginsIdent (past (c :: rest)) = false ∧ begins (· == Byte.percentSign) (past (c :: rest)) = false ∧
      begins Byte.isDigit (past (c :: rest)) = false := by
  have made := made c rest
  simp only [Made, kind] at made
  unfold past
  rw [made.2] at kind ⊢
  rcases numeric_cases (c :: rest) with ⟨-, same⟩ | ⟨-, same⟩ | ⟨ident, percent, same⟩
  · simp [same] at kind
  · simp [same] at kind
  · rw [same]
    exact ⟨ident, percent, not_digit_drop_numberLength _⟩

private theorem past_whiteSpace (kind : (next (c :: rest)).kind = .whiteSpace) :
    begins Byte.isWhitespace (past (c :: rest)) = false := by
  have made := made c rest
  simp only [Made, kind] at made
  rw [past, made.2]
  exact begins_drop_runLength Byte.isWhitespace rest

/-- A newline cuts a string short, and stays for a token of its own. -/
private theorem past_badString (kind : (next bytes).kind = .badString) :
    ∃ c rest, past bytes = c :: rest ∧ Byte.isNewline c = true := by
  obtain ⟨c, here, newline⟩ := next_badString kind
  rw [past]
  obtain ⟨inRange, rfl⟩ := List.getElem?_eq_some_iff.mp here
  exact ⟨_, _, List.drop_eq_getElem_cons inRange, newline⟩

/-- A delimiter is one ASCII byte. -/
private theorem next_delim_text (kind : (next (c :: rest)).kind = .delim) :
    next (c :: rest) = ⟨.delim, 1⟩ ∧ c < 0x80 := by
  have made := made c rest
  simp only [Made, kind] at made
  obtain ⟨ident, same⟩ := made
  have ascii := ascii_of_not_beginsIdent ident
  rw [same, charLength, width_of_ascii ascii]
  exact ⟨rfl, ascii⟩

private theorem eq_next_of_mem_head? {u : Token} (first : u ∈ (tokens bytes).head?) :
    ∃ c rest, bytes = c :: rest ∧ u = next (c :: rest) := by
  cases bytes with
  | nil => simp [tokens] at first
  | cons c rest =>
    rw [tokens_ne_nil (by simp), List.head?_cons, Option.mem_some_iff] at first
    exact ⟨c, rest, rfl, first.symm⟩

private theorem beginsIdent_of_kind (kind : (next (c :: rest)).kind ∈ identKinds) : beginsIdent (c :: rest) = true := by
  have made := made c rest
  simp only [identKinds, List.mem_cons, List.not_mem_nil, or_false] at kind
  rcases kind with kind | kind | kind | kind | kind
  · simp only [Made, kind] at made
    exact made.1
  · simp only [Made, kind] at made
    exact made.1
  · simp only [Made, kind] at made
    exact made.1
  · simp only [Made, kind] at made
    exact made.1
  · simp only [Made, kind] at made
    obtain ⟨left, same⟩ := List.isPrefixOf_iff_prefix.mp made.1
    rw [← same]
    rfl

/-- Where no identifier begins, none of its kinds follows. -/
private theorem not_identKinds (noIdent : beginsIdent bytes = false) {u : Token} (first : u ∈ (tokens bytes).head?) :
    u.kind ∉ identKinds := by
  obtain ⟨c, rest, rfl, rfl⟩ := eq_next_of_mem_head? first
  intro kind
  rw [beginsIdent_of_kind kind] at noIdent
  cases noIdent

/-- Behind `url(` comes a string, maybe after whitespace. -/
private theorem tokens_past_urlCall (call : isUrlCall (next bytes) bytes = true) :
    ∃ blank u more, tokens (past bytes) = blank ++ u :: more ∧
      (blank = [] ∨ ∃ w : Token, blank = [w] ∧ w.kind = .whiteSpace) ∧ (u.kind = .string ∨ u.kind = .badString) := by
  have string : ∀ {bytes}, begins Byte.isQuote bytes = true →
      ∃ u more, tokens bytes = u :: more ∧ (u.kind = .string ∨ u.kind = .badString) := by
    intro bytes quote
    cases bytes with
    | nil => cases quote
    | cons c rest =>
      refine ⟨_, _, tokens_ne_nil (by simp), ?_⟩
      rw [next_quote rest quote, Token.extend_kind]
      exact quotedRest_kind c rest
  have quote := next_isUrlCall call
  change begins Byte.isQuote ((past bytes).drop (whitespaceLength (past bytes))) = true at quote
  cases left : past bytes with
  | nil => simp [left, begins] at quote
  | cons c rest =>
    rw [left] at quote
    by_cases blank : Byte.isWhitespace c = true
    · rw [whitespaceLength_cons blank, List.drop_succ_cons] at quote
      obtain ⟨u, more, scan, kind⟩ := string quote
      refine ⟨[⟨.whiteSpace, whitespaceLength rest + 1⟩], u, more, ?_, .inr ⟨_, rfl, rfl⟩, kind⟩
      rw [tokens_ne_nil (by simp), next_whitespace rest blank, List.drop_succ_cons, scan]
      rfl
    · have none : whitespaceLength (c :: rest) = 0 := by simp [whitespaceLength, runLength, blank]
      rw [none, List.drop_zero] at quote
      obtain ⟨u, more, scan, kind⟩ := string quote
      exact ⟨[], u, more, scan, .inl rfl, kind⟩

/-- A delimiter with text `text` stands before the tokens `following`, whose bytes are `rest`: it is one ASCII byte, and
it begins nothing together with `rest`. -/
structure Apart (text : Bytes) (following : List Token) (rest : Bytes) : Prop where
  single : ∃ c, text = [c] ∧ c < 0x80
  numberSign : text = [Byte.numberSign] → beginsNameItem rest = false
  atSign : text = [Byte.atSign] → ∀ u ∈ following.head?, u.kind ∉ identKinds
  hyphen : text = [Byte.hyphen] →
    begins (fun c => Byte.isDigit c || c == Byte.hyphen || Byte.isNameStart c) rest = false ∧ beginsEscape rest = false
  plusSign_fullStop : text = [Byte.plusSign] ∨ text = [Byte.fullStop] → begins Byte.isDigit rest = false
  solidus : text = [Byte.solidus] → ∀ u ∈ following.head?, ¬(u.kind = .delim ∧ rest.take u.length = [Byte.asterisk])

private theorem not_beginsNameItem_of_numberSign (kind : (next (Byte.numberSign :: rest)).kind = .delim) :
    beginsNameItem rest = false := by
  rw [next_numberSign] at kind
  cases item : beginsNameItem rest with
  | true => simp [item] at kind
  | false => rfl

private theorem not_beginsIdent_of_atSign (kind : (next (Byte.atSign :: rest)).kind = .delim) :
    beginsIdent rest = false := by
  rw [next_atSign] at kind
  cases ident : beginsIdent rest with
  | true => simp [ident] at kind
  | false => rfl

private theorem not_beginsNumber_of_delim (kind : (next (c :: rest)).kind = .delim) :
    beginsNumber (c :: rest) = false := by
  refine Bool.eq_false_iff.mpr fun number => ?_
  rw [next_of_beginsNumber number] at kind
  rcases numeric_kind (c :: rest) with numeric | numeric | numeric
  · simp [numeric] at kind
  · simp [numeric] at kind
  · simp [numeric] at kind

/-- After a sign or a full stop a digit makes a number. -/
private theorem not_digit_of_delim (signed : c = Byte.hyphen ∨ c = Byte.plusSign ∨ c = Byte.fullStop)
    (kind : (next (c :: rest)).kind = .delim) : begins Byte.isDigit rest = false := by
  have number := not_beginsNumber_of_delim kind
  cases rest with
  | nil => rfl
  | cons d rest =>
    cases digit : Byte.isDigit d with
    | false => exact digit
    | true =>
      have fullStop : Byte.isSign Byte.fullStop = false := by decide
      have sign : ∀ s, s = Byte.hyphen ∨ s = Byte.plusSign → Byte.isSign s = true := by decide +kernel
      rcases signed with rfl | rfl | rfl
      · simp [beginsNumber, sign, beginsUnsigned, digit] at number
      · simp [beginsNumber, sign, beginsUnsigned, digit] at number
      · simp [beginsNumber, fullStop, beginsUnsigned, begins, digit] at number

private theorem not_beginsIdent_of_delim (kind : (next (c :: rest)).kind = .delim) :
    beginsIdent (c :: rest) = false := by
  have made := made c rest
  simp only [Made, kind] at made
  exact made.1

private theorem not_asterisk_of_solidus (kind : (next (Byte.solidus :: rest)).kind = .delim) :
    begins (· == Byte.asterisk) rest = false := by
  rw [next_solidus] at kind
  cases star : begins (· == Byte.asterisk) rest with
  | true => simp [star] at kind
  | false => rfl

/-- The first byte of a token's text is the first byte of what is left. -/
private theorem begins_of_text {u : Token} {d : UInt8} (text : bytes.take u.length = [d]) :
    begins (· == d) bytes = true := by
  cases bytes with
  | nil => simp at text
  | cons c rest =>
    cases long : u.length with
    | zero => simp [long] at text
    | succ n =>
      rw [long, List.take_succ_cons] at text
      simp [begins, (List.cons.inj text).1]

private theorem apart_of_delim (kind : (next (c :: rest)).kind = .delim) : Apart [c] (tokens rest) rest where
  single := ⟨c, rfl, (next_delim_text kind).2⟩
  numberSign same := by
    obtain rfl := List.singleton_inj.mp same
    exact not_beginsNameItem_of_numberSign kind
  atSign same := by
    obtain rfl := List.singleton_inj.mp same
    intro u first
    exact not_identKinds (not_beginsIdent_of_atSign kind) first
  hyphen same := by
    obtain rfl := List.singleton_inj.mp same
    have digit := not_digit_of_delim (.inl rfl) kind
    have ident := not_beginsIdent_of_delim kind
    rw [beginsIdent, if_pos (by decide), Bool.or_eq_false_iff] at ident
    refine ⟨?_, ident.2⟩
    cases rest with
    | nil => rfl
    | cons d rest =>
      simp only [begins, Bool.or_eq_false_iff] at digit ident ⊢
      exact ⟨⟨digit, ident.1.2⟩, ident.1.1⟩
  plusSign_fullStop same := by
    rw [List.singleton_inj, List.singleton_inj] at same
    exact not_digit_of_delim (.inr same) kind
  solidus same := by
    obtain rfl := List.singleton_inj.mp same
    rintro u - ⟨-, text⟩
    have star := begins_of_text text
    rw [not_asterisk_of_solidus kind] at star
    cases star

/-- A token with text `text` stands before the tokens `following`, whose bytes are `rest`, and could not have taken any
of them along. -/
structure Neighbours (token : Token) (text : Bytes) (following : List Token) (rest : Bytes) : Prop where
  /-- No name goes on. -/
  name : token.kind ∈ [.ident, .atKeyword, .hash, .dimension] → beginsNameItem rest = false
  /-- No name is the name of a function. -/
  ident : token.kind = .ident → ∀ u ∈ following.head?, u.kind ≠ .leftParenthesis
  /-- No number has a unit or a percent sign, and none goes on. -/
  number : token.kind = .number →
    (∀ u ∈ following.head?, u.kind ∉ identKinds ∧ ¬(u.kind = .delim ∧ rest.take u.length = [Byte.percentSign])) ∧
      begins Byte.isDigit rest = false
  whiteSpace : token.kind = .whiteSpace → begins Byte.isWhitespace rest = false
  /-- A bad string has the newline behind it that makes it bad. -/
  badString : token.kind = .badString →
    ∃ u ∈ following.head?, u.kind = .whiteSpace ∧ begins Byte.isNewline (rest.take u.length) = true
  /-- The function `url` has a string behind it, maybe after whitespace. -/
  urlCall : isUrlCall token text = true → ∃ blank u more, following = blank ++ u :: more ∧
    (blank = [] ∨ ∃ w : Token, blank = [w] ∧ w.kind = .whiteSpace) ∧ (u.kind = .string ∨ u.kind = .badString)
  delim : token.kind = .delim → Apart text following rest

theorem next_neighbours (c : UInt8) (rest : Bytes) :
    Neighbours (next (c :: rest)) ((c :: rest).take (next (c :: rest)).length) (tokens (past (c :: rest)))
      (past (c :: rest)) where
  name := past_name
  ident kind u first parenthesis := by
    have other := past_ident kind
    obtain ⟨d, left, same, rfl⟩ := eq_next_of_mem_head? first
    have made := made d left
    simp only [Made, parenthesis] at made
    have bracket : ∀ d, Kind.ofPunctuation? d = some .leftParenthesis → d = Byte.leftParenthesis := by
      intro d single
      unfold Kind.ofPunctuation? at single
      split at single <;> first | rfl | cases single
    obtain rfl := bracket d made.1
    simp [same, begins] at other
  number kind := by
    obtain ⟨ident, percent, digit⟩ := past_number kind
    refine ⟨?_, digit⟩
    intro u first
    refine ⟨not_identKinds ident first, ?_⟩
    rintro ⟨-, text⟩
    rw [begins_of_text text] at percent
    cases percent
  whiteSpace := past_whiteSpace
  badString kind := by
    obtain ⟨d, left, same, newline⟩ := past_badString kind
    have blank : Byte.isWhitespace d = true := by simp [Byte.isWhitespace, newline]
    rw [same, tokens_ne_nil (by simp), next_whitespace left blank]
    exact ⟨_, rfl, rfl, newline⟩
  urlCall call := by
    rw [isUrlCall, List.take_take, Nat.min_self] at call
    exact tokens_past_urlCall call
  delim kind := by
    have text := (next_delim_text kind).1
    rw [past, text]
    exact apart_of_delim kind

end CssLex.Scan
