import CssLex.Proofs.Byte.Classes
import CssLex.Scan.Tokens

/-!
The length of a construct that ends inside the bytes `u` of `u ++ v` does not depend on `v`. What begins in `u` alone
also begins in `u ++ v`; the other way it does so if it ends inside of `u`.
-/

namespace CssLex.Scan

variable {u v bytes rest : Bytes} {c : UInt8}

theorem begins_imp {p q : UInt8 → Bool} (imp : ∀ c, p c = true → q c = true) (h : begins p bytes = true) :
    begins q bytes = true := by
  cases bytes with
  | nil => exact absurd h Bool.false_ne_true
  | cons c rest => exact imp c h

theorem begins_append (p : UInt8 → Bool) (h : begins p u = true) (v : Bytes) : begins p (u ++ v) = true := by
  cases u with
  | nil => exact absurd h Bool.false_ne_true
  | cons c rest => exact h

theorem begins_append_eq (p : UInt8 → Bool) (some : u ≠ []) (v : Bytes) : begins p (u ++ v) = begins p u := by
  cases u with
  | nil => exact absurd rfl some
  | cons c rest => rfl

theorem beginsEscape_append (h : beginsEscape u = true) (v : Bytes) : beginsEscape (u ++ v) = true := by
  cases u with
  | nil => exact absurd h Bool.false_ne_true
  | cons c rest =>
    rw [beginsEscape, Bool.and_eq_true] at h
    rw [List.cons_append, beginsEscape, h.1, begins_append _ h.2]
    rfl

/-- In front of another byte an escape can be told. -/
theorem beginsEscape_cons_append (some : u ≠ []) (v : Bytes) :
    beginsEscape (c :: (u ++ v)) = beginsEscape (c :: u) := by
  rw [beginsEscape, beginsEscape, begins_append_eq _ some]

theorem beginsNameItem_append (h : beginsNameItem u = true) (v : Bytes) : beginsNameItem (u ++ v) = true := by
  rw [beginsNameItem, Bool.or_eq_true] at h ⊢
  rcases h with name | escape
  · exact .inl (begins_append _ name v)
  · exact .inr (beginsEscape_append escape v)

theorem beginsIdent_append (h : beginsIdent u = true) (v : Bytes) : beginsIdent (u ++ v) = true := by
  cases u with
  | nil => exact absurd h Bool.false_ne_true
  | cons c rest =>
    rw [beginsIdent] at h
    rw [List.cons_append, beginsIdent]
    split at h
    · rename_i hyphen
      rw [if_pos hyphen]
      rw [Bool.or_eq_true] at h ⊢
      rcases h with start | escape
      · exact .inl (begins_append _ start v)
      · exact .inr (beginsEscape_append escape v)
    · rename_i hyphen
      rw [if_neg hyphen]
      rw [Bool.or_eq_true] at h ⊢
      rcases h with start | escape
      · exact .inl start
      · exact .inr (beginsEscape_append escape v)

private theorem runLength_of_append {p : UInt8 → Bool} (fits : runLength p (u ++ v) ≤ u.length) :
    runLength p u = runLength p (u ++ v) := by
  unfold runLength at *
  rw [List.takeWhile_append] at fits ⊢
  split
  · rename_i whole
    rw [if_pos whole, List.length_append] at fits
    rw [List.length_append]
    omega
  · rfl

private theorem charLength_pos_of_ne_nil (some : bytes ≠ []) : 0 < charLength bytes := by
  cases bytes with
  | nil => exact absurd rfl some
  | cons c rest => exact charLength_pos c rest

theorem charLength_of_append (fits : charLength (u ++ v) ≤ u.length) : charLength u = charLength (u ++ v) := by
  cases u with
  | nil => exact (Nat.le_zero.mp fits).symm
  | cons c rest =>
    simp only [List.cons_append, charLength, List.length_take, List.length_cons, List.length_append] at *
    omega

private theorem blankLength_of_append (fits : blankLength (u ++ v) ≤ u.length) :
    blankLength u = blankLength (u ++ v) := by
  cases u with
  | nil => exact (Nat.le_zero.mp fits).symm
  | cons c rest =>
    cases rest with
    | cons d rest => rfl
    | nil =>
      rw [List.cons_append, List.nil_append, blankLength] at *
      rw [blankLength]
      split at fits
      · exact absurd fits (by simp)
      · rename_i single
        rw [if_neg single, if_neg (by simp [begins])]

theorem escapeLength_pos (some : bytes ≠ []) : 0 < escapeLength bytes := by
  unfold escapeLength
  dsimp only
  split
  · exact charLength_pos_of_ne_nil some
  · omega

private theorem escapeLength_of_append (fits : escapeLength (u ++ v) ≤ u.length) :
    escapeLength u = escapeLength (u ++ v) := by
  have digits : runLength Byte.isHexDigit ((u ++ v).take 6) ≤ u.length →
      runLength Byte.isHexDigit (u.take 6) = runLength Byte.isHexDigit ((u ++ v).take 6) := by
    intro within
    have atMost := runLength_le Byte.isHexDigit ((u ++ v).take 6)
    rw [List.length_take] at atMost
    rw [List.take_append] at within atMost ⊢
    apply runLength_of_append
    rw [List.length_take]
    omega
  unfold escapeLength at *
  dsimp only at *
  split at fits
  · rename_i none
    rw [digits (by omega), if_pos none, if_pos none]
    exact charLength_of_append fits
  · rename_i some
    have same := digits (by omega)
    rw [same, if_neg some, if_neg some]
    rw [List.drop_append_of_le_length (by omega)] at fits ⊢
    rw [blankLength_of_append]
    rw [List.length_drop]
    omega

theorem beginsNameItem_of_nameLength_pos (some : 0 < nameLength bytes) : beginsNameItem bytes = true := by
  cases bytes with
  | nil => simp [nameLength] at some
  | cons c rest =>
    rw [nameLength] at some
    rw [beginsNameItem, Bool.or_eq_true]
    split at some
    · exact .inl ‹_›
    split at some
    · exact .inr ‹_›
    · exact absurd some (Nat.lt_irrefl 0)

/-- An escape of which a byte is left is an escape. -/
private theorem beginsEscape_of_append (fits : escapeLength (u ++ v) ≤ u.length)
    (h : beginsEscape (c :: (u ++ v)) = true) : beginsEscape (c :: u) = true := by
  have some : u ++ v ≠ [] := by
    intro none
    simp [none, beginsEscape, begins] at h
  have long := escapeLength_pos some
  rwa [beginsEscape_cons_append (List.ne_nil_of_length_pos (by omega))] at h

theorem nameLength_of_append (fits : nameLength (u ++ v) ≤ u.length) : nameLength u = nameLength (u ++ v) := by
  induction u using nameLength.induct with
  | case1 =>
    rw [nameLength]
    exact (Nat.le_zero.mp fits).symm
  | case2 c rest name ih =>
    rw [List.cons_append, nameLength, if_pos name, List.length_cons] at fits
    rw [List.cons_append, nameLength, nameLength, if_pos name, if_pos name, ih (by omega)]
  | case3 c rest notName escape ih =>
    have begun := beginsEscape_append escape v
    rw [List.cons_append] at begun
    rw [List.cons_append, nameLength, if_neg notName, if_pos begun, List.length_cons] at fits
    have same := escapeLength_of_append (u := rest) (v := v) (by omega)
    rw [← same, List.drop_append_of_le_length (escapeLength_le rest)] at fits
    rw [List.cons_append, nameLength, nameLength, if_neg notName, if_neg notName, if_pos escape, if_pos begun, ← same,
      List.drop_append_of_le_length (escapeLength_le rest), ih]
    rw [List.length_drop]
    omega
  | case4 c rest notName noEscape =>
    rw [List.cons_append, nameLength, if_neg notName] at fits ⊢
    rw [nameLength, if_neg notName, if_neg noEscape]
    split
    · rename_i begun
      rw [if_pos begun, List.length_cons] at fits
      exact absurd (beginsEscape_of_append (by omega) begun) noEscape
    · rfl

theorem beginsNameItem_of_append (fits : nameLength (u ++ v) ≤ u.length) (h : beginsNameItem (u ++ v) = true) :
    beginsNameItem u = true := by
  apply beginsNameItem_of_nameLength_pos
  rw [nameLength_of_append fits]
  exact nameLength_pos h

theorem beginsEscape_of_append_name (fits : nameLength (u ++ v) ≤ u.length) (h : beginsEscape (u ++ v) = true) :
    beginsEscape u = true := by
  have item := beginsNameItem_of_append fits (by rw [beginsNameItem, h, Bool.or_true])
  cases u with
  | nil => exact absurd item Bool.false_ne_true
  | cons c rest =>
    rw [List.cons_append, beginsEscape, Bool.and_eq_true] at h
    have notName : Byte.isName c = false := by
      rw [eq_of_beq h.1]
      decide
    simpa [beginsNameItem, begins, notName] using item

theorem beginsIdent_of_append (fits : nameLength (u ++ v) ≤ u.length) (h : beginsIdent (u ++ v) = true) :
    beginsIdent u = true := by
  cases u with
  | nil =>
    have some := nameLength_pos (beginsNameItem_of_beginsIdent h)
    exact absurd fits (Nat.not_le.mpr some)
  | cons c rest =>
    rw [List.cons_append, beginsIdent] at h
    rw [beginsIdent]
    split at h
    · rename_i hyphen
      rw [if_pos hyphen]
      have name : Byte.isName c = true := by
        rw [eq_of_beq hyphen]
        decide
      rw [List.cons_append, nameLength, if_pos name, List.length_cons] at fits
      have within : nameLength (rest ++ v) ≤ rest.length := by omega
      have item : beginsNameItem (rest ++ v) = true := by
        rw [Bool.or_eq_true] at h
        rw [beginsNameItem, Bool.or_eq_true]
        rcases h with start | escape
        · refine .inl (begins_imp (fun c start => ?_) start)
          rcases Bool.or_eq_true_iff.mp start with start | hyphen
          · exact Byte.isName_of_isNameStart start
          · simp [Byte.isName, hyphen]
        · exact .inr escape
      have some : rest ≠ [] := by
        rintro rfl
        exact absurd (beginsNameItem_of_append within item) Bool.false_ne_true
      rw [Bool.or_eq_true] at h ⊢
      rcases h with start | escape
      · rw [begins_append_eq _ some] at start
        exact .inl start
      · exact .inr (beginsEscape_of_append_name within escape)
    · rename_i hyphen
      rw [if_neg hyphen]
      rw [Bool.or_eq_true] at h ⊢
      rcases h with start | escape
      · exact .inl start
      · exact .inr (beginsEscape_of_append_name fits escape)

theorem digitsLength_pos_iff : 0 < digitsLength bytes ↔ begins Byte.isDigit bytes = true := by
  cases bytes with
  | nil => simp [digitsLength, runLength, begins]
  | cons c rest => cases digit : Byte.isDigit c <;> simp [digitsLength, runLength, begins, digit]

private theorem digitsLength_of_append (fits : digitsLength (u ++ v) ≤ u.length) :
    digitsLength u = digitsLength (u ++ v) :=
  runLength_of_append fits

/-- Digits of which one is left are digits. -/
private theorem beginsDigit_of_append (fits : digitsLength (u ++ v) ≤ u.length)
    (h : begins Byte.isDigit (u ++ v) = true) : begins Byte.isDigit u = true := by
  rw [← digitsLength_pos_iff] at h ⊢
  rwa [digitsLength_of_append fits]

private theorem signLength_of_append (fits : signLength (u ++ v) ≤ u.length) : signLength u = signLength (u ++ v) := by
  cases u with
  | nil => exact (Nat.le_zero.mp fits).symm
  | cons c rest => rfl

theorem signLength_append (some : u ≠ []) (v : Bytes) : signLength (u ++ v) = signLength u := by
  rw [signLength, signLength, begins_append_eq _ some]

private theorem fractionLength_of_append (fits : fractionLength (u ++ v) ≤ u.length) :
    fractionLength u = fractionLength (u ++ v) := by
  cases u with
  | nil => exact (Nat.le_zero.mp fits).symm
  | cons c rest =>
    rw [List.cons_append, fractionLength] at fits ⊢
    rw [fractionLength]
    split at fits
    · rename_i point
      rw [List.length_cons] at fits
      rw [if_pos point]
      rw [Bool.and_eq_true] at point
      have digit := beginsDigit_of_append (u := rest) (by omega) point.2
      rw [point.1, digit, digitsLength_of_append (u := rest) (v := v) (by omega)]
      rfl
    · rename_i point
      rw [if_neg point, if_neg]
      intro alone
      rw [Bool.and_eq_true] at alone
      exact point (by rw [alone.1, begins_append _ alone.2]; rfl)

private theorem exponentLength_of_append (fits : exponentLength (u ++ v) ≤ u.length) :
    exponentLength u = exponentLength (u ++ v) := by
  cases u with
  | nil => exact (Nat.le_zero.mp fits).symm
  | cons c rest =>
    rw [List.cons_append, exponentLength] at fits ⊢
    rw [exponentLength]
    split at fits
    · rename_i mark
      rw [List.length_cons] at fits
      rw [if_pos mark]
      rw [Bool.and_eq_true] at mark
      have sign := signLength_of_append (u := rest) (v := v) (by omega)
      have signFits := signLength_le rest
      rw [← sign, List.drop_append_of_le_length signFits] at mark fits ⊢
      have digitsFit : digitsLength (rest.drop (signLength rest) ++ v) ≤ (rest.drop (signLength rest)).length := by
        rw [List.length_drop]
        omega
      rw [mark.1, beginsDigit_of_append digitsFit mark.2, digitsLength_of_append digitsFit]
      rfl
    · rename_i mark
      rw [if_neg mark, if_neg]
      intro alone
      rw [Bool.and_eq_true] at alone
      have some : rest ≠ [] := by
        rintro rfl
        exact absurd alone.2 Bool.false_ne_true
      refine mark ?_
      rw [signLength_append some, List.drop_append_of_le_length (signLength_le rest), alone.1, begins_append _ alone.2]
      rfl

/-- Two lengths that add up are settled if each of them is. -/
private theorem add_of_append {first second : Bytes → Nat} (bound : ∀ bytes, first bytes ≤ bytes.length)
    (one : ∀ {u v : Bytes}, first (u ++ v) ≤ u.length → first u = first (u ++ v))
    (two : ∀ {u v : Bytes}, second (u ++ v) ≤ u.length → second u = second (u ++ v))
    (fits : first (u ++ v) + second ((u ++ v).drop (first (u ++ v))) ≤ u.length) :
    first u + second (u.drop (first u)) = first (u ++ v) + second ((u ++ v).drop (first (u ++ v))) := by
  have same := one (u := u) (v := v) (by omega)
  rw [← same, List.drop_append_of_le_length (bound u)] at fits ⊢
  rw [two]
  rw [List.length_drop]
  omega

private theorem wholeLength_of_append (fits : wholeLength (u ++ v) ≤ u.length) : wholeLength u = wholeLength (u ++ v) :=
  add_of_append signLength_le signLength_of_append digitsLength_of_append fits

private theorem mantissaLength_of_append (fits : mantissaLength (u ++ v) ≤ u.length) :
    mantissaLength u = mantissaLength (u ++ v) :=
  add_of_append wholeLength_le wholeLength_of_append fractionLength_of_append fits

theorem numberLength_of_append (fits : numberLength (u ++ v) ≤ u.length) : numberLength u = numberLength (u ++ v) :=
  add_of_append mantissaLength_le mantissaLength_of_append exponentLength_of_append fits

theorem beginsNumber_eq (bytes : Bytes) : beginsNumber bytes = beginsUnsigned (bytes.drop (signLength bytes)) := by
  cases bytes with
  | nil => rfl
  | cons c rest => cases sign : Byte.isSign c <;> simp [beginsNumber, signLength, begins, sign]

theorem beginsUnsigned_iff :
    beginsUnsigned bytes = true ↔ 0 < digitsLength bytes + fractionLength (bytes.drop (digitsLength bytes)) := by
  cases bytes with
  | nil => simp [beginsUnsigned, digitsLength, runLength, fractionLength]
  | cons c rest =>
    cases digit : Byte.isDigit c with
    | true =>
      have some : 0 < digitsLength (c :: rest) := digitsLength_pos_iff.mpr digit
      rw [beginsUnsigned, digit, Bool.true_or]
      exact iff_of_true rfl (Nat.add_pos_left some _)
    | false =>
      have none : digitsLength (c :: rest) = 0 := by simp [digitsLength, runLength, digit]
      rw [none, List.drop_zero, fractionLength, beginsUnsigned, digit]
      split
      · rename_i point
        rw [point]
        exact iff_of_true rfl (by omega)
      · rename_i point
        simpa using point

/-- A number begins where there is more than a sign. -/
private theorem beginsNumber_iff : beginsNumber bytes = true ↔ signLength bytes < mantissaLength bytes := by
  rw [beginsNumber_eq, beginsUnsigned_iff, List.drop_drop]
  unfold mantissaLength wholeLength
  omega

theorem beginsNumber_append (h : beginsNumber u = true) (v : Bytes) : beginsNumber (u ++ v) = true := by
  have some : u ≠ [] := by
    rintro rfl
    exact absurd h Bool.false_ne_true
  rw [beginsNumber_eq] at h ⊢
  rw [signLength_append some, List.drop_append_of_le_length (signLength_le u)]
  cases left : u.drop (signLength u) with
  | nil =>
    rw [left] at h
    exact absurd h Bool.false_ne_true
  | cons c rest =>
    rw [left, beginsUnsigned, Bool.or_eq_true, Bool.and_eq_true] at h
    rw [List.cons_append, beginsUnsigned, Bool.or_eq_true, Bool.and_eq_true]
    rcases h with digit | ⟨point, digit⟩
    · exact .inl digit
    · exact .inr ⟨point, begins_append _ digit v⟩

theorem beginsNumber_of_append (fits : numberLength (u ++ v) ≤ u.length) (h : beginsNumber (u ++ v) = true) :
    beginsNumber u = true := by
  have mantissa : mantissaLength (u ++ v) ≤ u.length := by
    unfold numberLength at fits
    omega
  rw [beginsNumber_iff] at h ⊢
  rwa [mantissaLength_of_append mantissa, signLength_of_append (v := v) (by omega)]

theorem numberLength_le_numeric (bytes : Bytes) : numberLength bytes ≤ (numeric bytes).length := by
  unfold numeric
  dsimp only
  split
  · exact Nat.le_add_right _ _
  · split
    · exact Nat.le_succ _
    · exact Nat.le_refl _

theorem numeric_of_append (fits : (numeric (u ++ v)).length ≤ u.length) : numeric u = numeric (u ++ v) := by
  have number := numberLength_of_append (Nat.le_trans (numberLength_le_numeric _) fits)
  unfold numeric at fits ⊢
  dsimp only at fits ⊢
  rw [← number, List.drop_append_of_le_length (numberLength_le u)] at fits ⊢
  generalize left : u.drop (numberLength u) = rest at *
  have length : rest.length = u.length - numberLength u := by rw [← left, List.length_drop]
  split at fits
  · rename_i ident
    have within : nameLength (rest ++ v) ≤ rest.length := by
      dsimp only at fits
      omega
    rw [if_pos ident, if_pos (beginsIdent_of_append within ident), nameLength_of_append within]
  rename_i ident
  rw [if_neg ident, if_neg fun alone => ident (beginsIdent_append alone v)]
  split at fits
  · rename_i percent
    have some : rest ≠ [] := by
      rintro rfl
      dsimp only [List.length_nil] at *
      omega
    rw [if_pos percent, if_pos (by rwa [begins_append_eq _ some] at percent)]
  · rename_i percent
    rw [if_neg percent, if_neg fun alone => percent (begins_append _ alone v)]

private theorem continuationLength_of_append (fits : continuationLength (u ++ v) ≤ u.length) :
    continuationLength u = continuationLength (u ++ v) := by
  cases u with
  | nil => exact (Nat.le_zero.mp fits).symm
  | cons c rest =>
    unfold continuationLength at *
    rw [begins_append_eq _ (by simp)] at *
    split
    · rename_i newline
      rw [if_pos newline] at fits
      exact blankLength_of_append fits
    · rename_i newline
      rw [if_neg newline] at fits
      exact escapeLength_of_append fits

/-- A string is settled with its end, a bad string with the newline after it. -/
theorem quotedRest_of_append {quote : UInt8} (fits : (quotedRest quote (u ++ v)).length ≤ u.length)
    (cut : (quotedRest quote (u ++ v)).kind = .badString → (quotedRest quote (u ++ v)).length < u.length) :
    quotedRest quote u = quotedRest quote (u ++ v) := by
  induction u using quotedRest.induct quote with
  | case1 =>
    cases v with
    | nil => rfl
    | cons d tail =>
      rw [List.nil_append, quotedRest] at fits cut
      split at fits
      · simp at fits
      rename_i notClosing
      split at fits
      · rename_i newline
        rw [if_neg notClosing, if_pos newline] at cut
        exact absurd (cut rfl) (Nat.lt_irrefl 0)
      split at fits <;> simp at fits
  | case2 c rest closing => rw [List.cons_append, quotedRest, quotedRest, if_pos closing, if_pos closing]
  | case3 c rest notClosing newline =>
    rw [List.cons_append, quotedRest, quotedRest, if_neg notClosing, if_neg notClosing, if_pos newline, if_pos newline]
  | case4 c rest notClosing notNewline backslash ih =>
    rw [List.cons_append, quotedRest, if_neg notClosing, if_neg notNewline, if_pos backslash, Token.extend_length,
      List.length_cons] at fits cut
    have same := continuationLength_of_append (u := rest) (v := v) (by omega)
    rw [← same, List.drop_append_of_le_length (continuationLength_le rest)] at fits cut
    have length := List.length_drop (i := continuationLength rest) (l := rest)
    rw [List.cons_append, quotedRest, quotedRest, if_neg notClosing, if_neg notClosing, if_neg notNewline,
      if_neg notNewline, if_pos backslash, if_pos backslash, ← same,
      List.drop_append_of_le_length (continuationLength_le rest), ih (by omega) fun bad => ?_]
    have := cut bad
    omega
  | case5 c rest notClosing notNewline notBackslash ih =>
    rw [List.cons_append, quotedRest, if_neg notClosing, if_neg notNewline, if_neg notBackslash, Token.extend_length,
      List.length_cons] at fits cut
    rw [List.cons_append, quotedRest, quotedRest, if_neg notClosing, if_neg notClosing, if_neg notNewline,
      if_neg notNewline, if_neg notBackslash, if_neg notBackslash, ih (by omega) fun bad => ?_]
    have := cut bad
    omega

theorem commentRest_of_append (fits : commentRest (u ++ v) ≤ u.length) : commentRest u = commentRest (u ++ v) := by
  induction u using commentRest.induct with
  | case1 => exact (Nat.le_zero.mp fits).symm
  | case2 c rest closing =>
    have whole : (c == Byte.asterisk && begins (· == Byte.solidus) (rest ++ v)) = true := by
      rw [Bool.and_eq_true] at closing
      rw [closing.1, begins_append _ closing.2]
      rfl
    rw [List.cons_append, commentRest, commentRest, if_pos closing, if_pos whole]
  | case3 c rest notClosing ih =>
    rw [List.cons_append, commentRest] at fits ⊢
    rw [commentRest, if_neg notClosing]
    split at fits
    · rename_i whole
      rw [Bool.and_eq_true, begins_append_eq] at whole
      · exact absurd (by rw [whole.1, whole.2]; rfl) notClosing
      · rintro rfl
        simp at fits
    · rename_i unclosed
      rw [if_neg unclosed, ih (Nat.le_of_succ_le_succ fits)]

private theorem badUrlLength_of_append (fits : badUrlLength (u ++ v) ≤ u.length) :
    badUrlLength u = badUrlLength (u ++ v) := by
  induction u using badUrlLength.induct with
  | case1 =>
    rw [badUrlLength]
    exact (Nat.le_zero.mp fits).symm
  | case2 c rest closing => rw [List.cons_append, badUrlLength, badUrlLength, if_pos closing, if_pos closing]
  | case3 c rest notClosing escape ih =>
    have begun := beginsEscape_append escape v
    rw [List.cons_append] at begun
    rw [List.cons_append, badUrlLength, if_neg notClosing, if_pos begun, List.length_cons] at fits
    have same := escapeLength_of_append (u := rest) (v := v) (by omega)
    have length := List.length_drop (i := escapeLength rest) (l := rest)
    rw [← same, List.drop_append_of_le_length (escapeLength_le rest)] at fits
    rw [List.cons_append, badUrlLength, badUrlLength, if_neg notClosing, if_neg notClosing, if_pos escape,
      if_pos begun, ← same, List.drop_append_of_le_length (escapeLength_le rest), ih (by omega)]
  | case4 c rest notClosing noEscape ih =>
    rw [List.cons_append, badUrlLength, if_neg notClosing] at fits ⊢
    rw [badUrlLength, if_neg notClosing, if_neg noEscape]
    split at fits
    · rename_i begun
      rw [List.length_cons] at fits
      exact absurd (beginsEscape_of_append (by omega) begun) noEscape
    · rename_i plain
      rw [if_neg plain, ih (Nat.le_of_succ_le_succ fits)]

theorem badUrlLength_pos (c : UInt8) (rest : Bytes) : 0 < badUrlLength (c :: rest) := by
  rw [badUrlLength]
  split
  · exact Nat.one_pos
  split <;> exact Nat.succ_pos _

private theorem urlEnd_of_append (fits : (urlEnd (u ++ v)).length ≤ u.length) : urlEnd u = urlEnd (u ++ v) := by
  cases u with
  | nil =>
    cases v with
    | nil => rfl
    | cons d tail =>
      have long := badUrlLength_pos d tail
      rw [List.nil_append, urlEnd] at fits
      split at fits
      · exact absurd fits (by simp)
      · exact absurd long (Nat.not_lt.mpr fits)
  | cons c rest =>
    rw [List.cons_append, urlEnd] at fits ⊢
    rw [urlEnd]
    split at fits
    · rename_i closing
      rw [if_pos closing, if_pos closing]
    · rename_i notClosing
      have same := badUrlLength_of_append (u := c :: rest) fits
      rw [if_neg notClosing, if_neg notClosing, same]
      rfl

private theorem urlRest_length_pos (c : UInt8) (rest : Bytes) : 0 < (urlRest (c :: rest)).length := by
  rw [urlRest]
  split
  · exact Nat.one_pos
  split
  · exact Nat.succ_pos _
  split
  · exact Nat.succ_pos _
  split
  · exact badUrlLength_pos c rest
  · exact Nat.succ_pos _

theorem whitespaceLength_of_append (fits : whitespaceLength (u ++ v) ≤ u.length) :
    whitespaceLength u = whitespaceLength (u ++ v) := runLength_of_append fits

theorem urlRest_of_append (fits : (urlRest (u ++ v)).length ≤ u.length) : urlRest u = urlRest (u ++ v) := by
  induction u using urlRest.induct with
  | case1 =>
    cases v with
    | nil => rfl
    | cons d tail => exact absurd (Nat.le_zero.mp fits) (Nat.ne_of_gt (urlRest_length_pos d tail))
  | case2 c rest closing => rw [List.cons_append, urlRest, urlRest, if_pos closing, if_pos closing]
  | case3 c rest notClosing blank =>
    rw [List.cons_append, urlRest, if_neg notClosing, if_pos blank, Token.extend_length, List.length_cons] at fits
    have same := whitespaceLength_of_append (u := rest) (v := v) (by omega)
    have run := whitespaceLength_le rest
    have length := List.length_drop (i := whitespaceLength rest) (l := rest)
    rw [← same, List.drop_append_of_le_length run] at fits
    rw [List.cons_append, urlRest, urlRest, if_neg notClosing, if_neg notClosing, if_pos blank, if_pos blank, ← same,
      List.drop_append_of_le_length run, urlEnd_of_append (v := v) (by omega)]
  | case4 c rest notClosing notBlank escape ih =>
    have begun := beginsEscape_append escape v
    rw [List.cons_append] at begun
    rw [List.cons_append, urlRest, if_neg notClosing, if_neg notBlank, if_pos begun, Token.extend_length,
      List.length_cons] at fits
    have same := escapeLength_of_append (u := rest) (v := v) (by omega)
    have length := List.length_drop (i := escapeLength rest) (l := rest)
    rw [← same, List.drop_append_of_le_length (escapeLength_le rest)] at fits
    rw [List.cons_append, urlRest, urlRest, if_neg notClosing, if_neg notClosing, if_neg notBlank, if_neg notBlank,
      if_pos escape, if_pos begun, ← same, List.drop_append_of_le_length (escapeLength_le rest), ih (by omega)]
  | case5 c rest notClosing notBlank noEscape fault =>
    rw [List.cons_append, urlRest, if_neg notClosing, if_neg notBlank] at fits ⊢
    rw [urlRest, if_neg notClosing, if_neg notBlank, if_neg noEscape, if_pos fault]
    split at fits
    · rename_i begun
      rw [Token.extend_length, List.length_cons] at fits
      exact absurd (beginsEscape_of_append (by omega) begun) noEscape
    · rename_i plain
      have same := badUrlLength_of_append (u := c :: rest) (v := v) fits
      rw [if_neg plain, if_pos fault, same]
      rfl
  | case6 c rest notClosing notBlank noEscape plain ih =>
    rw [List.cons_append, urlRest, if_neg notClosing, if_neg notBlank] at fits ⊢
    rw [urlRest, if_neg notClosing, if_neg notBlank, if_neg noEscape, if_neg plain]
    split at fits
    · rename_i begun
      rw [Token.extend_length, List.length_cons] at fits
      exact absurd (beginsEscape_of_append (by omega) begun) noEscape
    · rename_i other
      rw [if_neg other, if_neg plain, ih (Nat.le_of_succ_le_succ fits)]

end CssLex.Scan
