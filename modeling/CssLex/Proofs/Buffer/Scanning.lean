import CssLex.Proofs.Buffer.Ahead
import CssLex.Proofs.Scan.Dispatch

/-!
On a buffer that holds a text, the checked scanner never faults, and it answers what the grammar says of the bytes that
are left at its position (`tokens_ofText`).
-/

namespace CssLex.Buffer

variable {b : Buffer} {pos : Nat} {bytes rest : Bytes} {c : UInt8}

private theorem hexLength_eq (limit : Nat) (h : b.Ahead pos bytes) :
    b.hexLength limit pos = .ok (Scan.runLength Byte.isHexDigit (bytes.take limit)) := by
  induction limit generalizing pos bytes with
  | zero => rfl
  | succ limit ih =>
    rw [hexLength, h.read, ok_bind]
    cases bytes with
    | nil => rfl
    | cons c rest =>
      rw [ih h.tail]
      cases digit : Byte.isHexDigit c <;> simp [Scan.runLength, digit]

private theorem blankLength_eq (h : b.Ahead pos bytes) : b.blankLength pos = .ok (Scan.blankLength bytes) := by
  rw [blankLength, h.read, ok_bind]
  cases bytes with
  | nil => rfl
  | cons c rest =>
    rw [h.tail.read]
    by_cases feed : c = Byte.carriageReturn
    · subst feed
      cases rest with
      | nil => rfl
      | cons d rest =>
        have blank : Byte.isWhitespace Byte.carriageReturn = true := by decide
        by_cases line : d = Byte.lineFeed <;> simp [Scan.blankLength, Scan.begins, line, blank]
    · simp [Scan.blankLength, feed]

private theorem escapeLength_eq (h : b.Ahead pos bytes) : b.escapeLength pos = .ok (Scan.escapeLength bytes) := by
  have fits : Scan.runLength Byte.isHexDigit (bytes.take 6) ≤ bytes.length := by
    have := Scan.runLength_le Byte.isHexDigit (bytes.take 6)
    have := List.length_take_le' 6 bytes
    omega
  rw [escapeLength, hexLength_eq 6 h, ok_bind, charLength_eq h, blankLength_eq (h.drop fits), Scan.escapeLength]
  simp only [ok_bind, pure_eq_ok]
  split <;> rfl

private theorem nameLength_eq (h : b.Ahead pos bytes) : b.nameLength pos = .ok (Scan.nameLength bytes) := by
  induction bytes using Scan.nameLength.induct generalizing pos with
  | case1 =>
    obtain ⟨inRange, here⟩ := h.get
    have zero : Byte.isName 0 = false := by decide
    rw [nameLength, dif_pos inRange, here, escapeAt_eq h]
    simp [zero, Scan.nameLength, Scan.beginsEscape]
  | case2 c rest name ih =>
    obtain ⟨inRange, here⟩ := h.get
    rw [nameLength, dif_pos inRange, here, ih h.tail, Scan.nameLength]
    simp [name]
  | case3 c rest notName escape ih =>
    obtain ⟨inRange, here⟩ := h.get
    have after := h.tail.drop (Scan.escapeLength_le rest)
    rw [nameLength, dif_pos inRange, here, escapeAt_eq h, escapeLength_eq h.tail, Scan.nameLength]
    simp [notName, escape, ih after]
  | case4 c rest notName noEscape =>
    obtain ⟨inRange, here⟩ := h.get
    rw [nameLength, dif_pos inRange, here, escapeAt_eq h, Scan.nameLength]
    simp [notName, noEscape]

private theorem exponentLength_eq (h : b.Ahead pos bytes) : b.exponentLength pos = .ok (Scan.exponentLength bytes) := by
  rw [exponentLength, h.read, ok_bind]
  cases bytes with
  | nil => rfl
  | cons c rest =>
    cases mark : Byte.isExponentMark c with
    | false => simp [Scan.exponentLength, mark]
    | true =>
      rw [h.tail.read, digitsLength_eq h.tail]
      cases rest with
      | nil =>
        have digit : Byte.isDigit 0 = false := by decide
        have sign : Byte.isSign 0 = false := by decide
        simp [Scan.exponentLength, Scan.begins, mark, digit, sign]
      | cons d rest =>
        have second := h.tail.tail
        rw [second.read, digitsLength_eq second]
        cases digit : Byte.isDigit d with
        | true =>
          have unsigned := Byte.isSign_of_isDigit digit
          simp [Scan.exponentLength, Scan.signLength, Scan.begins, mark, digit, unsigned]
        | false =>
          cases sign : Byte.isSign d with
          | false => simp [Scan.exponentLength, Scan.signLength, Scan.begins, mark, digit, sign]
          | true =>
            cases rest with
            | nil =>
              have zero : Byte.isDigit 0 = false := by decide
              simp [Scan.exponentLength, Scan.signLength, Scan.begins, mark, digit, sign, zero]
            | cons e rest =>
              cases last : Byte.isDigit e <;>
                simp [Scan.exponentLength, Scan.signLength, Scan.begins, mark, digit, sign, last]

private theorem signLength_eq (bytes : Bytes) :
    (if Byte.isSign (bytes.getD 0 0) then 1 else 0) = Scan.signLength bytes := by
  rw [begins_eq_getD Byte.isSign (by decide), Scan.signLength]

private theorem fractionLength_eq (h : b.Ahead pos bytes) : b.fractionLength pos = .ok (Scan.fractionLength bytes) := by
  rw [fractionLength, fractionAt_eq h, ok_bind]
  cases bytes with
  | nil => rfl
  | cons c rest =>
    rw [digitsLength_eq h.tail, Scan.fractionLength]
    cases point : (c == Byte.fullStop && Scan.begins Byte.isDigit rest) <;> simp [point]

theorem numberLength_eq (h : b.Ahead pos bytes) : b.numberLength pos = .ok (Scan.numberLength bytes) := by
  have signed := h.drop (Scan.signLength_le bytes)
  have whole := h.drop (Scan.wholeLength_le bytes)
  have mantissa := h.drop (Scan.mantissaLength_le bytes)
  rw [numberLength, h.read, ok_bind, signLength_eq]
  dsimp only
  rw [digitsLength_eq signed, ok_bind, ← Scan.wholeLength, fractionLength_eq whole, ok_bind, ← Scan.mantissaLength,
    exponentLength_eq mantissa]
  rfl

theorem numeric_eq (h : b.Ahead pos bytes) : b.numeric pos = .ok (Scan.numeric bytes) := by
  have after := h.drop (Scan.numberLength_le bytes)
  rw [numeric, numberLength_eq h, ok_bind, identAt_eq after, ok_bind, nameLength_eq after, after.read, Scan.numeric]
  simp only [ok_bind, pure_eq_ok, ← begins_eq_getD (· == Byte.percentSign) (by decide)]
  split
  · rfl
  · split <;> rfl

private theorem continuationLength_eq (h : b.Ahead pos bytes) :
    b.continuationLength pos = .ok (Scan.continuationLength bytes) := by
  rw [continuationLength, h.isEnd, h.read, blankLength_eq h, escapeLength_eq h]
  cases bytes with
  | nil => rfl
  | cons c rest => cases newline : Byte.isNewline c <;> simp [Scan.continuationLength, Scan.begins, newline]

private theorem distance?_eq (p : UInt8 → Bool) (h : b.Ahead pos bytes) {n : Nat} (fits : n ≤ bytes.length) :
    b.distance? p (pos + n) pos = .ok ((bytes.take n).findIdx? p) := by
  induction n generalizing pos bytes with
  | zero =>
    rw [distance?]
    simp
  | succ n ih =>
    cases bytes with
    | nil => simp at fits
    | cons c rest =>
      have near := ih h.tail (Nat.le_of_succ_le_succ fits)
      rw [Nat.add_assoc, Nat.add_comm 1 n] at near
      rw [distance?, if_neg (by omega), h.read_cons, near]
      cases found : p c <;> simp [List.findIdx?_cons, found]

private theorem distance?_length (p : UInt8 → Bool) (h : b.Ahead pos bytes) :
    b.distance? p b.length pos = .ok (bytes.findIdx? p) := by
  rw [← h.length, distance?_eq p h (Nat.le_refl _), List.take_length]

/-- The nearer of the first bytes of two classes is the first byte of either. -/
private theorem merge_findIdx? (p q : UInt8 → Bool) (bytes : Bytes) :
    Option.merge min (bytes.findIdx? p) (bytes.findIdx? q) = bytes.findIdx? (fun c => p c || q c) := by
  induction bytes with
  | nil => rfl
  | cons c rest ih =>
    rw [List.findIdx?_cons, List.findIdx?_cons, List.findIdx?_cons, ← ih]
    cases p c <;> cases q c <;> cases rest.findIdx? p <;> cases rest.findIdx? q <;>
      simp [Option.merge, Nat.add_min_add_right]

/-- Looking for one class in front of the first byte of another finds the first byte of either. -/
private theorem findIdx?_or_take (p q : UInt8 → Bool) (bytes : Bytes) :
    ((bytes.take (bytes.findIdx p)).findIdx? q).or (bytes.findIdx? p) = bytes.findIdx? (fun c => p c || q c) := by
  induction bytes with
  | nil => rfl
  | cons c rest ih =>
    cases far : p c with
    | true => simp [List.findIdx?_cons, List.findIdx_cons, far]
    | false =>
      rw [List.findIdx?_cons, List.findIdx?_cons, List.findIdx_cons, far, ← ih]
      simp only [cond_false, List.take_succ_cons, List.findIdx?_cons, Bool.false_or, Bool.false_eq_true, if_false]
      cases near : q c with
      | true => rfl
      | false =>
        simp only [Bool.false_eq_true, if_false]
        cases (rest.take (rest.findIdx p)).findIdx? q <;> rfl

private theorem stopAt_findIdx? (p : UInt8 → Bool) (h : b.Ahead pos bytes) :
    b.stopAt pos (bytes.findIdx? p) = .ok (bytes.findIdx p, bytes.getD (bytes.findIdx p) 0) := by
  have length := h.length
  cases here : bytes.findIdx? p with
  | none =>
    have inside : b.length - pos = bytes.length := by omega
    rw [List.findIdx?_eq_none_iff_findIdx_eq.mp here, List.getD_eq_getElem?_getD, List.getElem?_eq_none (Nat.le_refl _),
      stopAt, inside]
    rfl
  | some distance =>
    obtain ⟨inRange, stop⟩ := List.findIdx?_eq_some_iff_findIdx_eq.mp here
    rw [stop, stopAt, h.read_add (by omega)]
    rfl

/-- The bytes that end or interrupt a string. -/
def isStringStop (quote c : UInt8) : Bool :=
  (c == quote || c == Byte.reverseSolidus || c == Byte.lineFeed) || (c == Byte.carriageReturn || c == Byte.formFeed)

theorem stringStopMerged_eq (quote : UInt8) (h : b.Ahead pos bytes) :
    b.stringStopMerged quote pos =
      .ok (bytes.findIdx (isStringStop quote), bytes.getD (bytes.findIdx (isStringStop quote)) 0) := by
  have length := h.length
  have either := merge_findIdx? (fun c => c == quote || c == Byte.reverseSolidus || c == Byte.lineFeed)
    (fun c => c == Byte.carriageReturn || c == Byte.formFeed) bytes
  change _ = bytes.findIdx? (isStringStop quote) at either
  rw [stringStopMerged, if_neg (by omega), distance?_length _ h, ok_bind, distance?_length _ h, ok_bind, either]
  exact stopAt_findIdx? _ h

theorem stringStop_eq (quote : UInt8) (h : b.Ahead pos bytes) :
    b.stringStop quote pos =
      .ok (bytes.findIdx (isStringStop quote), bytes.getD (bytes.findIdx (isStringStop quote)) 0) := by
  have length : b.length - pos = bytes.length := by
    have := h.length
    omega
  have either := findIdx?_or_take (fun c => c == quote || c == Byte.reverseSolidus || c == Byte.lineFeed)
    (fun c => c == Byte.carriageReturn || c == Byte.formFeed) bytes
  change _ = bytes.findIdx? (isStringStop quote) at either
  have near := distance?_eq (fun c => c == Byte.carriageReturn || c == Byte.formFeed) h
    (List.findIdx_le_length (p := fun c => c == quote || c == Byte.reverseSolidus || c == Byte.lineFeed))
  rw [stringStop, if_neg (by have := h.length; omega), distance?_length _ h, ok_bind, length,
    ← List.findIdx_eq_getD_findIdx?]
  dsimp only
  rw [near, ok_bind, either]
  exact stopAt_findIdx? _ h

/-- Nothing happens in a string before the first byte that ends or interrupts it. -/
theorem quotedRest_plain {quote : UInt8} {plain : Bytes} (quiet : ∀ c ∈ plain, isStringStop quote c = false)
    (rest : Bytes) : Scan.quotedRest quote (plain ++ rest) = (Scan.quotedRest quote rest).extend plain.length := by
  induction plain with
  | nil => rfl
  | cons c plain ih =>
    obtain ⟨⟨⟨notQuote, notBackslash⟩, notLine⟩, notReturn, notFeed⟩ : (((c == quote) = false ∧
        (c == Byte.reverseSolidus) = false) ∧ (c == Byte.lineFeed) = false) ∧ (c == Byte.carriageReturn) = false ∧
        (c == Byte.formFeed) = false := by
      simpa only [isStringStop, Bool.or_eq_false_iff] using quiet c (List.mem_cons_self)
    rw [List.cons_append, Scan.quotedRest, ih fun d member => quiet d (List.mem_cons_of_mem _ member)]
    simp [notQuote, notBackslash, Byte.isNewline, notLine, notReturn, notFeed, Token.extend, Nat.add_assoc]

private theorem exists_stringStop (quote : UInt8) (bytes : Bytes) :
    ∃ plain rest, bytes = plain ++ rest ∧ bytes.findIdx (isStringStop quote) = plain.length ∧
      (∀ c ∈ plain, isStringStop quote c = false) ∧ ∀ c tail, rest = c :: tail → isStringStop quote c = true := by
  induction bytes with
  | nil => exact ⟨[], [], rfl, rfl, by simp, by simp⟩
  | cons c bytes ih =>
    cases stop : isStringStop quote c with
    | true =>
      refine ⟨[], c :: bytes, rfl, by simp [List.findIdx_cons, stop], by simp, ?_⟩
      rintro d tail ⟨⟩
      exact stop
    | false =>
      obtain ⟨plain, rest, rfl, first, quiet, stops⟩ := ih
      exact ⟨c :: plain, rest, rfl, by simp [List.findIdx_cons, stop, first], by simpa [stop] using quiet, stops⟩

private theorem quotedRest_eq (quote : UInt8) (h : b.Ahead pos bytes) :
    b.quotedRest quote pos = .ok (Scan.quotedRest quote bytes) := by
  induction size : bytes.length using Nat.strongRecOn generalizing pos bytes with
  | ind n ih =>
    obtain ⟨plain, rest, rfl, first, quiet, stops⟩ := exists_stringStop quote bytes
    have after := h.drop (n := plain.length) (by simp)
    rw [List.drop_left] at after
    have here : (plain ++ rest).getD plain.length 0 = rest.getD 0 0 := by
      rw [List.getD_eq_getElem?_getD, List.getElem?_append_right (Nat.le_refl _), Nat.sub_self,
        ← List.getD_eq_getElem?_getD]
    rw [quotedRest, stringStop_eq quote h, ok_bind, first, here, quotedRest_plain quiet]
    dsimp only
    cases rest with
    | nil =>
      rw [if_pos (after.end_iff.mpr rfl), Scan.quotedRest]
      simp [Token.extend]
    | cons c tail =>
      have next := after.tail.drop (Scan.continuationLength_le tail)
      have shorter : (tail.drop (Scan.continuationLength tail)).length < n := by
        rw [List.length_append, List.length_cons] at size
        rw [List.length_drop]
        omega
      rw [if_neg after.not_end, List.getD_cons_zero, continuationLength_eq after.tail, ok_bind, ih _ shorter next rfl,
        Scan.quotedRest]
      cases closing : c == quote with
      | true => simp [Token.extend, Nat.add_comm]
      | false =>
        cases newline : Byte.isNewline c with
        | true => simp [Token.extend]
        | false =>
          have backslash : c = Byte.reverseSolidus := by
            have := stops c tail rfl
            unfold isStringStop at this
            unfold Byte.isNewline at newline
            grind
          have sum : plain.length + 1 + Scan.continuationLength tail = Scan.continuationLength tail + 1 + plain.length := by
            omega
          simp [backslash, sum]

private theorem badUrlLength_eq (h : b.Ahead pos bytes) : b.badUrlLength pos = .ok (Scan.badUrlLength bytes) := by
  induction bytes using Scan.badUrlLength.induct generalizing pos with
  | case1 =>
    rw [badUrlLength, if_pos (h.end_iff.mpr rfl), Scan.badUrlLength]
    rfl
  | case2 c rest closing =>
    rw [badUrlLength, if_neg h.not_end, h.read_cons, ok_bind, if_pos closing, Scan.badUrlLength, if_pos closing]
    rfl
  | case3 c rest notClosing escape ih =>
    have after := h.tail.drop (Scan.escapeLength_le rest)
    rw [badUrlLength, if_neg h.not_end, h.read_cons, ok_bind, if_neg notClosing, escapeAt_eq h, ok_bind, if_pos escape,
      escapeLength_eq h.tail, ok_bind, ih after, Scan.badUrlLength, if_neg notClosing, if_pos escape]
    rfl
  | case4 c rest notClosing noEscape ih =>
    rw [badUrlLength, if_neg h.not_end, h.read_cons, ok_bind, if_neg notClosing, escapeAt_eq h, ok_bind,
      if_neg noEscape, ih h.tail, Scan.badUrlLength, if_neg notClosing, if_neg noEscape]
    rfl

private theorem badUrl_eq (h : b.Ahead pos bytes) : b.badUrl pos = .ok ⟨.badUrl, Scan.badUrlLength bytes⟩ := by
  rw [badUrl, badUrlLength_eq h]
  rfl

private theorem urlEnd_eq (h : b.Ahead pos bytes) : b.urlEnd pos = .ok (Scan.urlEnd bytes) := by
  rw [urlEnd, h.isEnd, h.read, badUrl_eq h]
  cases bytes with
  | nil => rfl
  | cons c rest => by_cases closing : c = Byte.rightParenthesis <;> simp [Scan.urlEnd, closing]

private theorem eq_of_beginsEscape (escape : Scan.beginsEscape (c :: rest) = true) : c = Byte.reverseSolidus := by
  rw [Scan.beginsEscape, Bool.and_eq_true] at escape
  exact eq_of_beq escape.1

private theorem urlRest_eq (h : b.Ahead pos bytes) : b.urlRest pos = .ok (Scan.urlRest bytes) := by
  induction bytes using Scan.urlRest.induct generalizing pos with
  | case1 =>
    rw [urlRest, if_pos (h.end_iff.mpr rfl), Scan.urlRest]
    rfl
  | case2 c rest closing =>
    rw [urlRest, if_neg h.not_end, h.read_cons, ok_bind, if_pos closing, Scan.urlRest, if_pos closing]
    rfl
  | case3 c rest notClosing blank =>
    have fits := Scan.whitespaceLength_le (c :: rest)
    rw [urlRest, if_neg h.not_end, h.read_cons, ok_bind, if_neg notClosing, if_pos blank, whitespaceLength_eq h, ok_bind,
      urlEnd_eq (h.drop fits), Scan.urlRest, if_neg notClosing, if_pos blank,
      Scan.whitespaceLength_cons blank]
    rfl
  | case4 c rest notClosing notBlank escape ih =>
    obtain rfl := eq_of_beginsEscape escape
    have holds : (Byte.isQuote Byte.reverseSolidus || Byte.reverseSolidus == Byte.leftParenthesis ||
      Byte.isNonPrintable Byte.reverseSolidus) = false := by decide
    have after := h.tail.drop (Scan.escapeLength_le rest)
    rw [urlRest, if_neg h.not_end, h.read_cons, ok_bind, if_neg notClosing, if_neg notBlank, Scan.urlRest,
      if_neg notClosing, if_neg notBlank, if_pos escape, escapeAt_eq h, escape, escapeLength_eq h.tail]
    simp [holds, ih after]
  | case5 c rest notClosing notBlank noEscape fault =>
    rw [urlRest, if_neg h.not_end, h.read_cons, ok_bind, if_neg notClosing, if_neg notBlank, Scan.urlRest,
      if_neg notClosing, if_neg notBlank, if_neg noEscape, if_pos fault, escapeAt_eq h, badUrl_eq h]
    unfold Scan.isUrlFault at fault
    rcases Bool.or_eq_true_iff.mp fault with refused | backslash
    · rw [if_pos refused]
    · rw [if_pos backslash, ok_bind, if_neg noEscape, ite_self]
  | case6 c rest notClosing notBlank noEscape plain ih =>
    obtain ⟨allowed, notBackslash⟩ := not_or.mp (mt Bool.or_eq_true_iff.mpr plain)
    rw [urlRest, if_neg h.not_end, h.read_cons, ok_bind, if_neg notClosing, if_neg notBlank, Scan.urlRest,
      if_neg notClosing, if_neg notBlank, if_neg noEscape, if_neg plain, ih h.tail]
    unfold Scan.isUrlFault at allowed
    rw [if_neg allowed, if_neg notBackslash]
    rfl

private theorem identLike_eq (h : b.Ahead pos bytes) : b.identLike pos = .ok (Scan.identLike bytes) := by
  have fits := Scan.nameLength_le bytes
  have after := h.drop fits
  rw [identLike, nameLength_eq h, ok_bind, after.read, ok_bind, h.span fits, ok_bind, Scan.identLike]
  cases left : bytes.drop (Scan.nameLength bytes) with
  | nil =>
    have zero : (0 : UInt8) ≠ Byte.leftParenthesis := by decide
    simp [Scan.nameWith, zero, Token.extend]
  | cons c rest =>
    rw [left] at after
    have blank := Scan.whitespaceLength_le rest
    have inner := after.tail.drop blank
    rw [whitespaceLength_eq after.tail, ok_bind, inner.read, ok_bind, begins_eq_getD Byte.isQuote (by decide),
      urlRest_eq inner, List.getD_cons_zero]
    generalize bytes.take (Scan.nameLength bytes) = name
    by_cases parenthesis : c = Byte.leftParenthesis
    · cases url : Bytes.equalIgnoringCase name (utf8 "url") with
      | false => simp [Scan.nameWith, parenthesis, Scan.urlName, url, Token.extend, Nat.add_comm]
      | true =>
        have sum : Scan.whitespaceLength rest + 1 + Scan.nameLength bytes =
            Scan.nameLength bytes + 1 + Scan.whitespaceLength rest := by omega
        cases quoted : Scan.begins Byte.isQuote (rest.drop (Scan.whitespaceLength rest)) with
        | true => simp [Scan.nameWith, parenthesis, quoted, Token.extend, Nat.add_comm]
        | false => simp [Scan.nameWith, parenthesis, Scan.urlName, url, quoted, sum]
    · simp [Scan.nameWith, parenthesis, Token.extend]

private theorem commentEnd?_eq (h : b.Ahead pos bytes) :
    b.commentEnd? pos = .ok none ∧ Scan.commentRest bytes = bytes.length ∨
      ∃ distance, b.commentEnd? pos = .ok (some distance) ∧ Scan.commentRest bytes = distance + 2 := by
  have length := h.length
  induction bytes generalizing pos with
  | nil =>
    rw [commentEnd?, if_pos (by simp at length; omega)]
    exact .inl ⟨rfl, rfl⟩
  | cons c rest ih =>
    cases rest with
    | nil =>
      rw [commentEnd?, if_pos (by simp at length; omega)]
      exact .inl ⟨rfl, by simp [Scan.commentRest, Scan.begins]⟩
    | cons d rest =>
      have more : ¬b.length ≤ pos + 1 := h.tail.not_end
      rw [commentEnd?, if_neg more, h.read_cons, h.tail.read_cons, Scan.commentRest]
      by_cases closing : c = Byte.asterisk ∧ d = Byte.solidus
      · obtain ⟨rfl, rfl⟩ := closing
        exact .inr ⟨0, rfl, rfl⟩
      · obtain ⟨missing, whole⟩ | ⟨distance, found, part⟩ := ih h.tail h.tail.length
        · exact .inl ⟨by simp [closing, missing], by simp [Scan.begins, closing, whole]⟩
        · exact .inr ⟨distance + 1, by simp [closing, found], by simp [Scan.begins, closing, part]⟩

theorem commentLength_eq (h : b.Ahead pos bytes) : b.commentLength pos = .ok (Scan.commentRest bytes) := by
  have length := h.length
  rw [commentLength, if_neg (by omega)]
  obtain ⟨missing, whole⟩ | ⟨distance, found, part⟩ := commentEnd?_eq h
  · rw [missing, whole, ok_bind]
    exact congrArg Except.ok (by omega)
  · rw [found, part, ok_bind]
    rfl

private theorem delim_eq (h : b.Ahead pos bytes) : b.delim pos = .ok ⟨.delim, Scan.charLength bytes⟩ := by
  rw [delim, charLength_eq h]
  rfl

private theorem hyphenated_eq (h : b.Ahead pos (Byte.hyphen :: rest)) :
    b.hyphenated pos = .ok (Scan.next (Byte.hyphen :: rest)) := by
  have close : (utf8 "->").isPrefixOf rest = (rest.getD 0 0 == Byte.hyphen && rest.getD 1 0 == Byte.greaterThan) := by
    have mark : utf8 "->" = [Byte.hyphen, Byte.greaterThan] := by decide
    rw [mark, isPrefixOf_cons_eq (by decide), isPrefixOf_cons_eq (by decide)]
    simp
  rw [hyphenated, numberAt_eq h, ok_bind, numeric_eq h, h.read_add (k := 1) (by omega), ok_bind,
    h.read_add (k := 2) (by omega), ok_bind, identAt_eq h, ok_bind, identLike_eq h, delim_eq h, Scan.next_hyphen, close]
  simp only [List.getD_cons_succ]
  repeat' split
  all_goals rfl

private theorem lessThan_eq (h : b.Ahead pos (Byte.lessThan :: rest)) :
    b.lessThan pos = .ok (Scan.next (Byte.lessThan :: rest)) := by
  have mark : (utf8 "!--").isPrefixOf rest =
      (rest.getD 0 0 == Byte.exclamationMark && rest.getD 1 0 == Byte.hyphen && rest.getD 2 0 == Byte.hyphen) := by
    have mark : utf8 "!--" = [Byte.exclamationMark, Byte.hyphen, Byte.hyphen] := by decide
    rw [mark, isPrefixOf_cons_eq (by decide), isPrefixOf_cons_eq (by decide), isPrefixOf_cons_eq (by decide)]
    simp [Bool.and_assoc]
  rw [lessThan, h.read_add (k := 1) (by omega), ok_bind, h.read_add (k := 2) (by simp), ok_bind,
    h.read_add (k := 3) (by simp), ok_bind, delim_eq h, Scan.next_lessThan, mark]
  simp only [List.getD_cons_succ]
  split <;> rfl

theorem next_eq (h : b.Ahead pos bytes) : b.next pos = .ok (Scan.next bytes) := by
  rw [next, h.isEnd, h.read]
  cases bytes with
  | nil => rfl
  | cons c rest =>
    rw [if_neg (by simp), ok_bind, List.getD_cons_zero]
    by_cases blank : Byte.isWhitespace c = true
    · rw [if_pos blank, whitespaceLength_eq h, Scan.next_whitespace rest blank, Scan.whitespaceLength_cons blank]
      rfl
    by_cases quote : Byte.isQuote c = true
    · rw [if_neg blank, if_pos quote, quotedRest_eq c h.tail, Scan.next_quote rest quote]
      rfl
    rw [if_neg blank, if_neg quote]
    cases punctuation : Kind.ofPunctuation? c with
    | some kind =>
      rw [Scan.next_punctuation rest punctuation]
      rfl
    | none =>
      by_cases sharp : c = Byte.numberSign
      · subst sharp
        rw [nameItemAt_eq h.tail, nameLength_eq h.tail, delim_eq h, Scan.next_numberSign]
        cases Scan.beginsNameItem rest <;> rfl
      by_cases keyword : c = Byte.atSign
      · subst keyword
        rw [identAt_eq h.tail, nameLength_eq h.tail, delim_eq h, Scan.next_atSign]
        cases Scan.beginsIdent rest <;> rfl
      by_cases signed : c = Byte.plusSign ∨ c = Byte.fullStop
      · rw [numberAt_eq h, numeric_eq h, delim_eq h, Scan.next_plusSign_fullStop rest signed]
        simp only [sharp, keyword, beq_iff_eq, Bool.or_eq_true, signed, if_true, if_false]
        cases Scan.beginsNumber (c :: rest) <;> rfl
      by_cases hyphen : c = Byte.hyphen
      · subst hyphen
        exact hyphenated_eq h
      by_cases slash : c = Byte.solidus
      · subst slash
        rw [h.tail.read, delim_eq h, Scan.next_solidus, ← begins_eq_getD (· == Byte.asterisk) (by decide)]
        cases rest with
        | nil => rfl
        | cons d rest =>
          rw [commentLength_eq h.tail.tail]
          by_cases star : d = Byte.asterisk
          · subst star
            rfl
          · simp [star, sharp, keyword, signed, hyphen]
      by_cases less : c = Byte.lessThan
      · subst less
        exact lessThan_eq h
      by_cases backslash : c = Byte.reverseSolidus
      · subst backslash
        rw [escapeAt_eq h, identLike_eq h, delim_eq h, Scan.next_reverseSolidus]
        cases Scan.beginsEscape (Byte.reverseSolidus :: rest) <;> rfl
      simp only [sharp, keyword, signed, hyphen, slash, less, backslash, beq_iff_eq, Bool.or_eq_true, if_false]
      by_cases digit : Byte.isDigit c = true
      · rw [if_pos digit, numeric_eq h, Scan.next_digit rest digit]
      by_cases start : Byte.isNameStart c = true
      · rw [if_neg digit, if_pos start, identLike_eq h, Scan.next_nameStart rest start]
      obtain ⟨plus, point⟩ := not_or.mp signed
      rw [if_neg digit, if_neg start, delim_eq h, Scan.next_delim rest] <;> simp_all

theorem nextTokens_eq (h : b.Ahead pos bytes) (count : Nat) :
    b.nextTokens count pos = .ok ((Scan.tokens bytes ++ List.replicate count (⟨.eof, 0⟩ : Token)).take count) := by
  induction count generalizing pos bytes with
  | zero => rfl
  | succ count ih =>
    have after := h.drop (Scan.next_length_le bytes)
    rw [nextTokens, next_eq h, ok_bind, ih after]
    cases bytes with
    | nil => simp [Scan.tokens, Scan.next, List.replicate_succ]
    | cons c rest =>
      have enough : min (count - (Scan.tokens ((c :: rest).drop (Scan.next (c :: rest)).length)).length) (count + 1) =
          min (count - (Scan.tokens ((c :: rest).drop (Scan.next (c :: rest)).length)).length) count := by
        omega
      rw [Scan.tokens, List.cons_append, List.take_succ_cons]
      simp [List.take_append, enough]

theorem tokens_eq (h : b.Ahead pos bytes) : b.tokens pos = .ok (Scan.tokens bytes) := by
  induction bytes using Scan.tokens.induct generalizing pos with
  | case1 =>
    rw [tokens, if_pos (h.end_iff.mpr rfl), Scan.tokens]
    rfl
  | case2 c rest token =>
    rename_i ih
    have after := h.drop (Scan.next_length_le (c :: rest))
    rw [tokens, if_neg h.not_end, next_eq h, ok_bind, if_pos (Scan.next_length_pos c rest), ih after, Scan.tokens]
    rfl

/-- What the checked scanner finds from any position of a text is what the grammar says of the bytes from there. -/
theorem tokens_ofText (t : Text) {pos : Nat} (inRange : pos ≤ t.size) :
    (ofText t).tokens pos = .ok (Scan.tokens (t.toBytes.drop pos)) := tokens_eq (ahead_ofText t inRange)

end CssLex.Buffer
