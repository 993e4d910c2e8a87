import CssLex.Proofs.Scan.Truncation

/-!
The other direction of `Scan.Settled`: a construct of `u` that ends inside of `u` is the same in `u ++ v`, as long as no
lookahead from its end could go on into `v` (`Conclusive`). So what is appended to a text leaves its tokens alone up to
the last one, and that one too if its kind has one text only (`tokens_append`).
-/

namespace CssLex

/-- The last token is of a kind that has one text only. -/
def Token.EndsInLexeme (tokens : List Token) : Prop := ∃ token ∈ tokens.getLast?, token.kind.lexeme?.isSome = true

namespace Scan

variable {u v rest : Bytes} {c : UInt8}

/-- Bytes after which a lookahead may need another one. -/
def isLoose (c : UInt8) : Bool :=
  c == Byte.reverseSolidus || c == Byte.exclamationMark || c == Byte.fullStop || Byte.isSign c || Byte.isExponentMark c

/-- Bytes that show what they begin, whatever comes behind them: three of them, or the last one not loose. -/
inductive Conclusive : Bytes → Prop where
  | one {c : UInt8} (firm : isLoose c = false) : Conclusive [c]
  | two {c d : UInt8} (firm : isLoose d = false) : Conclusive [c, d]
  | more (c d e : UInt8) (rest : Bytes) : Conclusive (c :: d :: e :: rest)

namespace Conclusive

private theorem ne_nil (h : Conclusive u) : u ≠ [] := by
  cases h <;> simp

private theorem cons (h : Conclusive u) (c : UInt8) : Conclusive (c :: u) := by
  cases h with
  | one firm => exact .two firm
  | two _ => exact .more _ _ _ _
  | more => exact .more _ _ _ _

private theorem append (h : Conclusive u) (front : Bytes) : Conclusive (front ++ u) := by
  induction front with
  | nil => exact h
  | cons c front ih => exact ih.cons c

/-- What goes on from an earlier place is conclusive too. -/
private theorem drop_of_le {m n : Nat} (h : Conclusive (u.drop n)) (le : m ≤ n) : Conclusive (u.drop m) := by
  obtain ⟨k, rfl⟩ : ∃ k, n = m + k := ⟨n - m, by omega⟩
  rw [← List.drop_drop] at h
  rw [← List.take_append_drop k (u.drop m)]
  exact h.append _

private theorem lt_length {n : Nat} (h : Conclusive (u.drop n)) : n < u.length := by
  have some := List.length_pos_iff.mpr h.ne_nil
  rw [List.length_drop] at some
  omega

end Conclusive

private theorem not_loose : ∀ {c}, isLoose c = false → (c == Byte.reverseSolidus) = false ∧
    (c == Byte.exclamationMark) = false ∧ (c == Byte.fullStop) = false ∧ (c == Byte.hyphen) = false ∧
    Byte.isSign c = false ∧ Byte.isExponentMark c = false := by
  decide +kernel

private theorem beginsEscape_conclusive (h : Conclusive u) (v : Bytes) : beginsEscape (u ++ v) = beginsEscape u := by
  cases h with
  | one firm => simp [beginsEscape, (not_loose firm).1]
  | two => rfl
  | more => rfl

private theorem beginsNameItem_conclusive (h : Conclusive u) (v : Bytes) :
    beginsNameItem (u ++ v) = beginsNameItem u := by
  rw [beginsNameItem, beginsNameItem, beginsEscape_conclusive h, begins_append_eq _ h.ne_nil]

private theorem beginsIdent_conclusive (h : Conclusive u) (v : Bytes) : beginsIdent (u ++ v) = beginsIdent u := by
  cases h with
  | one firm =>
    obtain ⟨backslash, -, -, hyphen, -⟩ := not_loose firm
    simp [beginsIdent, beginsEscape, backslash, hyphen]
  | two firm => simp [beginsIdent, begins, beginsEscape, (not_loose firm).1]
  | more => rfl

private theorem beginsNumber_conclusive (h : Conclusive u) (v : Bytes) : beginsNumber (u ++ v) = beginsNumber u := by
  cases h with
  | one firm =>
    obtain ⟨-, -, fullStop, -, sign, -⟩ := not_loose firm
    simp [beginsNumber, beginsUnsigned, sign, fullStop]
  | two firm => simp [beginsNumber, beginsUnsigned, begins, (not_loose firm).2.2.1]
  | more => rfl

/-- The rest of a mark is a loose byte but for its last byte. -/
private theorem isPrefixOf_conclusive (h : Conclusive u) (v : Bytes) :
    (utf8 "->").isPrefixOf (u ++ v) = (utf8 "->").isPrefixOf u ∧
      (utf8 "!--").isPrefixOf (u ++ v) = (utf8 "!--").isPrefixOf u := by
  have close : utf8 "->" = [Byte.hyphen, Byte.greaterThan] := by decide
  have opening : utf8 "!--" = [Byte.exclamationMark, Byte.hyphen, Byte.hyphen] := by decide
  rw [close, opening]
  cases h with
  | one firm =>
    obtain ⟨-, exclamation, -, hyphen, -⟩ := not_loose firm
    rw [beq_eq_false_iff_ne] at exclamation hyphen
    simp [List.isPrefixOf, exclamation.symm, hyphen.symm]
  | two firm =>
    obtain ⟨-, -, -, hyphen, -⟩ := not_loose firm
    rw [beq_eq_false_iff_ne] at hyphen
    simp [List.isPrefixOf, hyphen.symm]
  | more => simp [List.isPrefixOf]

private theorem runLength_append {p : UInt8 → Bool} (inside : runLength p u < u.length) (v : Bytes) :
    runLength p (u ++ v) = runLength p u := by
  unfold runLength at *
  rw [List.takeWhile_append, if_neg (by omega)]

private theorem charLength_append (inside : charLength u < u.length) (v : Bytes) :
    charLength (u ++ v) = charLength u := by
  cases u with
  | nil => simp at inside
  | cons c rest =>
    simp only [List.cons_append, charLength, List.length_take, List.length_cons, List.length_append] at *
    omega

private theorem blankLength_append (inside : blankLength u < u.length) (v : Bytes) :
    blankLength (u ++ v) = blankLength u := by
  cases u with
  | nil => simp at inside
  | cons c rest =>
    cases rest with
    | cons d rest => rfl
    | nil =>
      -- a carriage return at the end would wait for a line feed, but it is whitespace and so not left
      have feed : (c == Byte.carriageReturn) = false := by
        have blank : Byte.isWhitespace Byte.carriageReturn = true := by decide
        refine beq_eq_false_iff_ne.mpr ?_
        rintro rfl
        simp [blankLength, begins, blank] at inside
      simp [blankLength, feed]

private theorem escapeLength_append (inside : escapeLength u < u.length) (v : Bytes) :
    escapeLength (u ++ v) = escapeLength u := by
  have digits : runLength Byte.isHexDigit ((u ++ v).take 6) = runLength Byte.isHexDigit (u.take 6) := by
    by_cases long : 6 ≤ u.length
    · rw [List.take_append_of_le_length long]
    · have whole : u.take 6 = u := List.take_of_length_le (by omega)
      rw [List.take_append, whole]
      apply runLength_append
      unfold escapeLength at inside
      rw [whole] at inside
      dsimp only at inside
      split at inside <;> omega
  unfold escapeLength at inside ⊢
  dsimp only at inside ⊢
  rw [digits]
  split at inside
  · rename_i none
    rw [if_pos none, if_pos none, charLength_append inside]
  · rename_i some
    rw [if_neg some, if_neg some, List.drop_append_of_le_length (by omega), blankLength_append]
    rw [List.length_drop]
    omega

private theorem nameLength_append (settled : Conclusive (u.drop (nameLength u))) (v : Bytes) :
    nameLength (u ++ v) = nameLength u := by
  induction u using nameLength.induct with
  | case1 => exact absurd List.drop_nil settled.ne_nil
  | case2 c rest name ih =>
    rw [nameLength, if_pos name, List.drop_succ_cons] at settled
    rw [List.cons_append, nameLength, nameLength, if_pos name, if_pos name, ih settled]
  | case3 c rest notName escape ih =>
    have begun := beginsEscape_append escape v
    rw [List.cons_append] at begun
    rw [nameLength, if_neg notName, if_pos escape, ← Nat.add_assoc, List.drop_succ_cons, Nat.add_comm,
      ← List.drop_drop] at settled
    have inside : escapeLength rest < rest.length := by
      have := settled.lt_length
      rw [List.length_drop] at this
      omega
    rw [List.cons_append, nameLength, nameLength, if_neg notName, if_neg notName, if_pos escape, if_pos begun,
      escapeLength_append inside, List.drop_append_of_le_length (escapeLength_le rest), ih settled]
  | case4 c rest notName noEscape =>
    rw [nameLength, if_neg notName, if_neg noEscape, List.drop_zero] at settled
    have still := beginsEscape_conclusive settled v
    rw [List.cons_append] at still
    rw [List.cons_append, nameLength, nameLength, if_neg notName, if_neg notName, still, if_neg noEscape,
      if_neg noEscape]

private theorem digitsLength_append (inside : digitsLength u < u.length) (v : Bytes) :
    digitsLength (u ++ v) = digitsLength u := runLength_append inside v

private theorem fractionLength_append (settled : Conclusive (u.drop (fractionLength u))) (v : Bytes) :
    fractionLength (u ++ v) = fractionLength u := by
  have inside := settled.lt_length
  cases u with
  | nil => exact absurd rfl settled.ne_nil
  | cons c rest =>
    rw [fractionLength] at settled inside
    rw [List.cons_append, fractionLength, fractionLength]
    by_cases point : (c == Byte.fullStop && begins Byte.isDigit rest) = true
    · rw [if_pos point, List.length_cons] at inside
      rw [if_pos point]
      rw [Bool.and_eq_true] at point
      rw [point.1, begins_append _ point.2, digitsLength_append (by omega)]
      rfl
    · rw [if_neg point, List.drop_zero] at settled
      rw [if_neg point, if_neg]
      cases settled with
      | one firm => simp [(not_loose firm).2.2.1]
      | two => exact point
      | more => exact point

private theorem exponentLength_append (settled : Conclusive (u.drop (exponentLength u))) (v : Bytes) :
    exponentLength (u ++ v) = exponentLength u := by
  have inside := settled.lt_length
  cases u with
  | nil => exact absurd rfl settled.ne_nil
  | cons c rest =>
    rw [exponentLength] at settled inside
    rw [List.cons_append, exponentLength, exponentLength]
    by_cases mark : (Byte.isExponentMark c && begins Byte.isDigit (rest.drop (signLength rest))) = true
    · rw [if_pos mark, List.length_cons] at inside
      rw [if_pos mark]
      rw [Bool.and_eq_true] at mark
      have some : rest ≠ [] := by
        rintro rfl
        exact absurd mark.2 Bool.false_ne_true
      have run : digitsLength (rest.drop (signLength rest)) < (rest.drop (signLength rest)).length := by
        rw [List.length_drop]
        omega
      rw [signLength_append some, List.drop_append_of_le_length (signLength_le rest), mark.1,
        begins_append _ mark.2, digitsLength_append run]
      rfl
    · rw [if_neg mark, List.drop_zero] at settled
      rw [if_neg mark, if_neg]
      cases settled with
      | one firm => simp [(not_loose firm).2.2.2.2.2]
      | two firm =>
        have unsigned := (not_loose firm).2.2.2.2.1
        simpa [signLength, begins, unsigned] using mark
      | more d e f rest =>
        cases sign : Byte.isSign e <;> simpa [signLength, begins, sign] using mark

/-- Two lengths that add up stay the same if each of them does. -/
private theorem add_append {first second : Bytes → Nat} (bound : ∀ bytes, first bytes ≤ bytes.length)
    (one : ∀ {u : Bytes}, Conclusive (u.drop (first u)) → ∀ v, first (u ++ v) = first u)
    (two : ∀ {u : Bytes}, Conclusive (u.drop (second u)) → ∀ v, second (u ++ v) = second u)
    (settled : Conclusive (u.drop (first u + second (u.drop (first u))))) (v : Bytes) :
    first (u ++ v) + second ((u ++ v).drop (first (u ++ v))) = first u + second (u.drop (first u)) := by
  rw [one (settled.drop_of_le (Nat.le_add_right _ _)), List.drop_append_of_le_length (bound u), two]
  rw [List.drop_drop]
  exact settled

private theorem wholeLength_append (settled : Conclusive (u.drop (wholeLength u))) (v : Bytes) :
    wholeLength (u ++ v) = wholeLength u :=
  add_append signLength_le
    (fun settled v => signLength_append (List.ne_nil_of_length_pos (Nat.zero_lt_of_lt settled.lt_length)) v)
    (fun settled v => digitsLength_append settled.lt_length v) settled v

private theorem mantissaLength_append (settled : Conclusive (u.drop (mantissaLength u))) (v : Bytes) :
    mantissaLength (u ++ v) = mantissaLength u :=
  add_append wholeLength_le wholeLength_append fractionLength_append settled v

private theorem numberLength_append (settled : Conclusive (u.drop (numberLength u))) (v : Bytes) :
    numberLength (u ++ v) = numberLength u :=
  add_append mantissaLength_le mantissaLength_append exponentLength_append settled v

private theorem numeric_append (settled : Conclusive (u.drop (numeric u).length)) (v : Bytes) :
    numeric (u ++ v) = numeric u := by
  have behind := settled.drop_of_le (numberLength_le_numeric u)
  unfold numeric at settled ⊢
  dsimp only at settled ⊢
  rw [numberLength_append behind, List.drop_append_of_le_length (numberLength_le u), beginsIdent_conclusive behind,
    begins_append_eq _ behind.ne_nil]
  by_cases ident : beginsIdent (u.drop (numberLength u)) = true
  · rw [if_pos ident] at settled
    rw [if_pos ident, if_pos ident, nameLength_append]
    rw [List.drop_drop]
    exact settled
  · rw [if_neg ident, if_neg ident]

private theorem continuationLength_append (inside : continuationLength u < u.length) (v : Bytes) :
    continuationLength (u ++ v) = continuationLength u := by
  have some : u ≠ [] := List.ne_nil_of_length_pos (Nat.zero_lt_of_lt inside)
  unfold continuationLength at *
  rw [begins_append_eq _ some]
  split at inside
  · rename_i newline
    rw [if_pos newline, if_pos newline, blankLength_append inside]
  · rename_i newline
    rw [if_neg newline, if_neg newline, escapeLength_append inside]

private theorem quotedRest_append {quote : UInt8} (inside : (quotedRest quote u).length < u.length) (v : Bytes) :
    quotedRest quote (u ++ v) = quotedRest quote u := by
  induction u using quotedRest.induct quote with
  | case1 => simp at inside
  | case2 c rest closing => rw [List.cons_append, quotedRest, quotedRest, if_pos closing, if_pos closing]
  | case3 c rest notClosing newline =>
    rw [List.cons_append, quotedRest, quotedRest, if_neg notClosing, if_neg notClosing, if_pos newline, if_pos newline]
  | case4 c rest notClosing notNewline backslash ih =>
    rw [quotedRest, if_neg notClosing, if_neg notNewline, if_pos backslash, Token.extend_length,
      List.length_cons] at inside
    have length := List.length_drop (i := continuationLength rest) (l := rest)
    rw [List.cons_append, quotedRest, quotedRest, if_neg notClosing, if_neg notClosing, if_neg notNewline,
      if_neg notNewline, if_pos backslash, if_pos backslash, continuationLength_append (by omega),
      List.drop_append_of_le_length (continuationLength_le rest), ih (by omega)]
  | case5 c rest notClosing notNewline notBackslash ih =>
    rw [quotedRest, if_neg notClosing, if_neg notNewline, if_neg notBackslash] at inside
    rw [List.cons_append, quotedRest, quotedRest, if_neg notClosing, if_neg notClosing, if_neg notNewline,
      if_neg notNewline, if_neg notBackslash, if_neg notBackslash, ih (Nat.lt_of_succ_lt_succ inside)]

private theorem commentRest_append (inside : commentRest u < u.length) (v : Bytes) :
    commentRest (u ++ v) = commentRest u := by
  induction u using commentRest.induct with
  | case1 => simp at inside
  | case2 c rest closing =>
    have whole : (c == Byte.asterisk && begins (· == Byte.solidus) (rest ++ v)) = true := by
      rw [Bool.and_eq_true] at closing
      rw [closing.1, begins_append _ closing.2]
      rfl
    rw [List.cons_append, commentRest, commentRest, if_pos closing, if_pos whole]
  | case3 c rest notClosing ih =>
    rw [commentRest, if_neg notClosing] at inside
    have left := Nat.lt_of_succ_lt_succ inside
    have some : rest ≠ [] := List.ne_nil_of_length_pos (Nat.zero_lt_of_lt left)
    rw [List.cons_append, commentRest, commentRest, begins_append_eq _ some, if_neg notClosing, if_neg notClosing,
      ih left]

private theorem badUrlLength_append (inside : badUrlLength u < u.length) (v : Bytes) :
    badUrlLength (u ++ v) = badUrlLength u := by
  induction u using badUrlLength.induct with
  | case1 => simp at inside
  | case2 c rest closing => rw [List.cons_append, badUrlLength, badUrlLength, if_pos closing, if_pos closing]
  | case3 c rest notClosing escape ih =>
    rw [badUrlLength, if_neg notClosing, if_pos escape, List.length_cons] at inside
    have some : rest ≠ [] := List.ne_nil_of_length_pos (by omega)
    have length := List.length_drop (i := escapeLength rest) (l := rest)
    rw [List.cons_append, badUrlLength, badUrlLength, if_neg notClosing, if_neg notClosing,
      beginsEscape_cons_append some, if_pos escape, if_pos escape, escapeLength_append (by omega),
      List.drop_append_of_le_length (escapeLength_le rest), ih (by omega)]
  | case4 c rest notClosing noEscape ih =>
    rw [badUrlLength, if_neg notClosing, if_neg noEscape, List.length_cons] at inside
    have some : rest ≠ [] := List.ne_nil_of_length_pos (by omega)
    rw [List.cons_append, badUrlLength, badUrlLength, if_neg notClosing, if_neg notClosing,
      beginsEscape_cons_append some, if_neg noEscape, if_neg noEscape, ih (Nat.lt_of_succ_lt_succ inside)]

private theorem urlEnd_append (inside : (urlEnd u).length < u.length) (v : Bytes) : urlEnd (u ++ v) = urlEnd u := by
  cases u with
  | nil => simp at inside
  | cons c rest =>
    rw [urlEnd] at inside
    rw [List.cons_append, urlEnd, urlEnd]
    by_cases closing : (c == Byte.rightParenthesis) = true
    · rw [if_pos closing, if_pos closing]
    · rw [if_neg closing] at inside
      have same := badUrlLength_append inside v
      rw [List.cons_append] at same
      rw [if_neg closing, if_neg closing, same]

private theorem whitespaceLength_append (inside : whitespaceLength u < u.length) (v : Bytes) :
    whitespaceLength (u ++ v) = whitespaceLength u := runLength_append inside v

private theorem urlRest_append (inside : (urlRest u).length < u.length) (v : Bytes) : urlRest (u ++ v) = urlRest u := by
  induction u using urlRest.induct with
  | case1 => simp at inside
  | case2 c rest closing => rw [List.cons_append, urlRest, urlRest, if_pos closing, if_pos closing]
  | case3 c rest notClosing blank =>
    rw [urlRest, if_neg notClosing, if_pos blank, Token.extend_length, List.length_cons] at inside
    have length := List.length_drop (i := whitespaceLength rest) (l := rest)
    rw [List.cons_append, urlRest, urlRest, if_neg notClosing, if_neg notClosing, if_pos blank, if_pos blank,
      whitespaceLength_append (by omega), List.drop_append_of_le_length (whitespaceLength_le rest),
      urlEnd_append (by omega)]
  | case4 c rest notClosing notBlank escape ih =>
    rw [urlRest, if_neg notClosing, if_neg notBlank, if_pos escape, Token.extend_length, List.length_cons] at inside
    have some : rest ≠ [] := List.ne_nil_of_length_pos (by omega)
    have length := List.length_drop (i := escapeLength rest) (l := rest)
    rw [List.cons_append, urlRest, urlRest, if_neg notClosing, if_neg notClosing, if_neg notBlank, if_neg notBlank,
      beginsEscape_cons_append some, if_pos escape, if_pos escape, escapeLength_append (by omega),
      List.drop_append_of_le_length (escapeLength_le rest), ih (by omega)]
  | case5 c rest notClosing notBlank noEscape fault =>
    rw [urlRest, if_neg notClosing, if_neg notBlank, if_neg noEscape, if_pos fault] at inside
    have same := badUrlLength_append inside v
    have long := badUrlLength_pos c rest
    have some : rest ≠ [] := by
      rintro rfl
      simp only [List.length_cons, List.length_nil] at inside
      omega
    rw [List.cons_append] at same
    rw [List.cons_append, urlRest, urlRest, if_neg notClosing, if_neg notClosing, if_neg notBlank, if_neg notBlank,
      beginsEscape_cons_append some, if_neg noEscape, if_neg noEscape, if_pos fault, if_pos fault, same]
  | case6 c rest notClosing notBlank noEscape plain ih =>
    rw [urlRest, if_neg notClosing, if_neg notBlank, if_neg noEscape, if_neg plain, Token.extend_length,
      List.length_cons] at inside
    have some : rest ≠ [] := List.ne_nil_of_length_pos (by omega)
    rw [List.cons_append, urlRest, urlRest, if_neg notClosing, if_neg notClosing, if_neg notBlank, if_neg notBlank,
      beginsEscape_cons_append some, if_neg noEscape, if_neg noEscape, if_neg plain, if_neg plain,
      ih (Nat.lt_of_succ_lt_succ inside)]

private theorem nameWith_append {name : Bytes} (inside : (nameWith name u).length < u.length) (v : Bytes) :
    nameWith name (u ++ v) = nameWith name u := by
  cases u with
  | nil => simp at inside
  | cons c rest =>
    rw [nameWith] at inside
    rw [List.cons_append, nameWith, nameWith]
    by_cases other : (c != Byte.leftParenthesis) = true
    · rw [if_pos other, if_pos other]
    rw [if_neg other] at inside
    rw [if_neg other, if_neg other]
    by_cases plain : (!name.equalIgnoringCase urlName) = true
    · rw [plain, Bool.true_or, Bool.true_or, if_pos rfl, if_pos rfl]
    rw [Bool.not_eq_true] at plain
    rw [plain, Bool.false_or] at inside ⊢
    -- at the end of `u` whitespace would be a part of the url
    have some : rest.drop (whitespaceLength rest) ≠ [] := by
      intro none
      rw [none, begins, if_neg Bool.false_ne_true, urlRest, Token.extend_length, List.length_cons] at inside
      have := List.drop_eq_nil_iff.mp none
      omega
    have blank : whitespaceLength rest < rest.length := by
      rw [ne_eq, List.drop_eq_nil_iff] at some
      omega
    rw [whitespaceLength_append blank, List.drop_append_of_le_length (Nat.le_of_lt blank), begins_append_eq _ some,
      Bool.false_or]
    split at inside
    · rename_i quote
      rw [if_pos quote, if_pos quote]
    · rename_i quote
      have length := List.length_drop (i := whitespaceLength rest) (l := rest)
      rw [Token.extend_length, List.length_cons] at inside
      rw [if_neg quote, if_neg quote, urlRest_append (by omega)]

private theorem identLike_append (settled : Conclusive (u.drop (identLike u).length)) (v : Bytes) :
    identLike (u ++ v) = identLike u := by
  have behind := settled.drop_of_le (Nat.le_add_left _ _)
  have inside := settled.lt_length
  have length := List.length_drop (i := nameLength u) (l := u)
  have name := nameLength_append behind v
  unfold identLike at inside ⊢
  dsimp only at inside ⊢
  rw [Token.extend_length] at inside
  rw [name, List.take_append_of_le_length (nameLength_le u), List.drop_append_of_le_length (nameLength_le u),
    nameWith_append (by omega)]

/-- A choice between two tokens stays if the chosen one does. -/
private theorem choice_append {test : Bool} {yes no yes' no' : Token}
    (settled : Conclusive (u.drop (if test then yes else no).length))
    (ifYes : Conclusive (u.drop yes.length) → yes' = yes) (ifNo : Conclusive (u.drop no.length) → no' = no) :
    (if test then yes' else no') = if test then yes else no := by
  cases test with
  | true => exact ifYes settled
  | false => exact ifNo settled

/-- A token stays the same if nothing behind it waits for more. -/
theorem next_append (some : u ≠ []) (settled : Conclusive (u.drop (next u).length)) (v : Bytes) :
    next (u ++ v) = next u := by
  obtain ⟨c, rest, rfl⟩ := List.exists_cons_of_ne_nil some
  -- the dispatch looks ahead from the first byte or from the second one
  have whole : Conclusive (c :: rest) := settled.drop_of_le (Nat.zero_le _)
  have left : Conclusive rest := settled.drop_of_le (m := 1) (next_length_pos c rest)
  have inside := settled.lt_length
  have number := beginsNumber_conclusive whole v
  have ident := beginsIdent_conclusive whole v
  rw [List.length_cons] at inside
  rw [List.cons_append] at number ident ⊢
  cases first c with
  | whitespace blank =>
    rw [next_whitespace rest blank] at inside
    rw [next_whitespace _ blank, next_whitespace _ blank, whitespaceLength_append (Nat.lt_of_succ_lt_succ inside)]
  | quote quote =>
    rw [next_quote rest quote, Token.extend_length] at inside
    rw [next_quote _ quote, next_quote _ quote, quotedRest_append (Nat.lt_of_succ_lt_succ inside)]
  | punctuation single => rw [next_punctuation _ single, next_punctuation _ single]
  | numberSign same =>
    subst same
    rw [next_numberSign] at settled
    rw [next_numberSign, next_numberSign, beginsNameItem_conclusive left]
    refine choice_append settled (fun settled => ?_) fun _ => rfl
    rw [nameLength_append settled]
  | atSign same =>
    subst same
    rw [next_atSign] at settled
    rw [next_atSign, next_atSign, beginsIdent_conclusive left]
    refine choice_append settled (fun settled => ?_) fun _ => rfl
    rw [nameLength_append settled]
  | plusSign_fullStop same =>
    rw [next_plusSign_fullStop rest same] at settled
    rw [next_plusSign_fullStop _ same, next_plusSign_fullStop _ same, number]
    refine choice_append settled (fun settled => numeric_append settled v) fun _ => ?_
    rcases same with rfl | rfl <;> rfl
  | hyphen same =>
    subst same
    rw [next_hyphen] at settled
    rw [next_hyphen, next_hyphen, number, ident, (isPrefixOf_conclusive left v).1]
    refine choice_append settled (fun settled => numeric_append settled v) fun settled => ?_
    refine choice_append settled (fun _ => rfl) fun settled => ?_
    exact choice_append settled (fun settled => identLike_append settled v) fun _ => rfl
  | solidus same =>
    subst same
    rw [next_solidus] at settled
    rw [next_solidus, next_solidus, begins_append_eq _ left.ne_nil]
    refine choice_append settled (fun settled => ?_) fun _ => rfl
    have unclosed : commentRest (rest.drop 1) < (rest.drop 1).length := by
      have inside := settled.lt_length
      rw [List.length_drop]
      rw [List.length_cons] at inside
      dsimp only at inside
      omega
    rw [List.drop_append_of_le_length (List.length_pos_iff.mpr left.ne_nil), commentRest_append unclosed]
  | lessThan same =>
    subst same
    rw [next_lessThan, next_lessThan, (isPrefixOf_conclusive left v).2]
    rfl
  | reverseSolidus same =>
    subst same
    have escape := beginsEscape_conclusive whole v
    rw [List.cons_append] at escape
    rw [next_reverseSolidus] at settled
    rw [next_reverseSolidus, next_reverseSolidus, escape]
    exact choice_append settled (fun settled => identLike_append settled v) fun _ => rfl
  | digit digit =>
    rw [next_digit rest digit] at settled
    rw [next_digit _ digit, next_digit _ digit]
    exact numeric_append settled v
  | nameStart start =>
    rw [next_nameStart rest start] at settled
    rw [next_nameStart _ start, next_nameStart _ start]
    exact identLike_append settled v
  | delim token =>
    rw [token] at inside
    have same := charLength_append (u := c :: rest) inside v
    rw [List.cons_append] at same
    rw [token, token, same]

/-! ## Tokens with one text -/

private theorem next_of_commentOpen (mark : (utf8 "<!--").isPrefixOf (c :: rest) = true) :
    next (c :: rest) = ⟨.commentOpen, 4⟩ := by
  have bytes : utf8 "<!--" = Byte.lessThan :: utf8 "!--" := by decide
  rw [bytes, List.isPrefixOf, Bool.and_eq_true, beq_iff_eq] at mark
  rw [← mark.1, next_lessThan, if_pos mark.2]

private theorem next_of_commentClose (mark : (utf8 "-->").isPrefixOf (c :: rest) = true) :
    next (c :: rest) = ⟨.commentClose, 3⟩ := by
  have bytes : utf8 "-->" = Byte.hyphen :: utf8 "->" := by decide
  have second : utf8 "->" = [Byte.hyphen, Byte.greaterThan] := by decide
  rw [bytes, List.isPrefixOf, Bool.and_eq_true, beq_iff_eq] at mark
  have number : beginsNumber (Byte.hyphen :: rest) = false := by
    obtain ⟨more, rfl⟩ := List.isPrefixOf_iff_prefix.mp mark.2
    rw [second]
    rfl
  rw [← mark.1, next_hyphen, number, if_neg Bool.false_ne_true, if_pos mark.2]

/-- A kind with one text is that of a mark or of a byte that is a token by itself. -/
private theorem first_of_lexeme (fixed : (next (c :: rest)).kind.lexeme?.isSome = true) :
    (∃ kind, Kind.ofPunctuation? c = some kind) ∨ (utf8 "<!--").isPrefixOf (c :: rest) = true ∨
      (utf8 "-->").isPrefixOf (c :: rest) = true := by
  have built := construct c rest
  generalize next (c :: rest) = token at built fixed
  cases built with
  | string => rcases quotedRest_kind c rest with kind | kind <;> simp [kind, Kind.lexeme?] at fixed
  | numeric => rcases numeric_kind (c :: rest) with kind | kind | kind <;> simp [kind, Kind.lexeme?] at fixed
  | identLike => rcases identLike_kind (c :: rest) with kind | kind | kind | kind <;> simp [kind, Kind.lexeme?] at fixed
  | commentOpen mark => exact .inr (.inl mark)
  | commentClose mark => exact .inr (.inr mark)
  | punctuation single => exact .inl ⟨_, single⟩
  | _ => simp [Kind.lexeme?] at fixed

private theorem next_append_of_lexeme (fixed : (next u).kind.lexeme?.isSome = true) (v : Bytes) :
    next (u ++ v) = next u := by
  cases u with
  | nil => simp [next, Kind.lexeme?] at fixed
  | cons c rest =>
    rcases first_of_lexeme fixed with ⟨kind, single⟩ | mark | mark
    · rw [List.cons_append, next_punctuation _ single, next_punctuation _ single]
    · rw [next_of_commentOpen mark]
      exact next_of_commentOpen (isPrefixOf_append mark v)
    · rw [next_of_commentClose mark]
      exact next_of_commentClose (isPrefixOf_append mark v)

/-- No lookahead needs more than the text of such a token. -/
theorem conclusive_of_lexeme (fixed : (next u).kind.lexeme?.isSome = true) : Conclusive (u.take (next u).length) := by
  have firm : ∀ {c}, (Kind.ofPunctuation? c).isSome = true → isLoose c = false := by decide +kernel
  cases u with
  | nil => simp [next, Kind.lexeme?] at fixed
  | cons c rest =>
    rcases first_of_lexeme fixed with ⟨kind, single⟩ | mark | mark
    · rw [next_punctuation _ single]
      exact .one (firm (by rw [single]; rfl))
    · rw [next_of_commentOpen mark]
      obtain ⟨more, same⟩ := List.isPrefixOf_iff_prefix.mp mark
      rw [← same]
      exact .more _ _ _ _
    · rw [next_of_commentClose mark]
      obtain ⟨more, same⟩ := List.isPrefixOf_iff_prefix.mp mark
      rw [← same]
      exact .more _ _ _ _

/-- A text whose last token has one text is that token, or ends as what is behind its first token does. -/
private theorem endsInLexeme_tokens (last : Token.EndsInLexeme (tokens u)) : u ≠ [] ∧
    (past u = [] ∧ (next u).kind.lexeme?.isSome = true ∨ past u ≠ [] ∧ Token.EndsInLexeme (tokens (past u))) := by
  have some : u ≠ [] := by
    rintro rfl
    simp [tokens, Token.EndsInLexeme] at last
  refine ⟨some, ?_⟩
  rw [tokens_ne_nil some, ← past] at last
  by_cases left : past u = []
  · rw [left, tokens] at last
    obtain ⟨token, only, fixed⟩ := last
    obtain rfl := Option.some.inj only
    exact .inl ⟨left, fixed⟩
  · rw [tokens_ne_nil left, Token.EndsInLexeme, List.getLast?_cons_cons, ← tokens_ne_nil left] at last
    exact .inr ⟨left, last⟩

private theorem conclusive_of_endsInLexeme (last : Token.EndsInLexeme (tokens u)) : Conclusive u := by
  induction u using tokens.induct with
  | case1 => exact absurd rfl (endsInLexeme_tokens last).1
  | case2 c rest token ih =>
    rcases (endsInLexeme_tokens last).2 with ⟨none, fixed⟩ | ⟨-, last⟩
    · have whole := conclusive_of_lexeme fixed
      rwa [List.take_of_length_le (List.drop_eq_nil_iff.mp none)] at whole
    · rw [← List.take_append_drop (next (c :: rest)).length (c :: rest)]
      exact (ih last).append _

private theorem tokens_append_of_next (some : u ≠ []) (first : next (u ++ v) = next u) :
    tokens (u ++ v) = next u :: tokens (past u ++ v) := by
  rw [tokens_ne_nil (List.append_ne_nil_of_left_ne_nil some v), first,
    List.drop_append_of_le_length (next_length_le u), past]

/-- What is appended to a text whose last token has one text leaves the tokens that are there. -/
theorem tokens_append (last : Token.EndsInLexeme (tokens u)) (v : Bytes) : tokens (u ++ v) = tokens u ++ tokens v := by
  induction u using tokens.induct with
  | case1 => rw [tokens, List.nil_append, List.nil_append]
  | case2 c rest token ih =>
    have front : tokens (c :: rest) = next (c :: rest) :: tokens (past (c :: rest)) := tokens_ne_nil (by simp)
    rcases (endsInLexeme_tokens last).2 with ⟨none, fixed⟩ | ⟨left, last⟩
    · rw [tokens_append_of_next (by simp) (next_append_of_lexeme fixed v), front, none, tokens]
      rfl
    · have first := next_append (by simp) (conclusive_of_endsInLexeme last) v
      rw [tokens_append_of_next (by simp) first, front, past, ih last]
      rfl

end Scan
end CssLex
