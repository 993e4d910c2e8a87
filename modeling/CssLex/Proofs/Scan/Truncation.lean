import CssLex.Proofs.Scan.Dispatch
import CssLex.Proofs.Scan.Lossless
import CssLex.Proofs.Scan.Settled

/-!
A text may be cut behind a token without a change to the tokens before the cut (`tokens_of_append`), but for two kinds
of token that the bytes after them settle: a bad string is one by the newline after it, and `url(` is a function by a
quote, maybe after whitespace. `reach` counts these bytes in.
-/

namespace CssLex.Scan

variable {u v bytes rest : Bytes} {c : UInt8} {n : Nat}

/-- A function named `url`. -/
def isUrlCall (token : Token) (bytes : Bytes) : Bool :=
  token.kind == .function && Bytes.equalIgnoringCase (bytes.take token.length) (utf8 "url(")

/-- How many bytes settle the token at the front of `bytes`. -/
def reach (token : Token) (bytes : Bytes) : Nat :=
  if token.kind = .badString then token.length + 1
  else if isUrlCall token bytes then token.length + whitespaceLength (bytes.drop token.length) + 1
  else token.length

private theorem length_le_reach (token : Token) (bytes : Bytes) : token.length ≤ reach token bytes := by
  unfold reach
  split
  · omega
  · split <;> omega

private theorem length_le_of_reach {token : Token} (fits : reach token bytes ≤ n) : token.length ≤ n :=
  Nat.le_trans (length_le_reach token bytes) fits

theorem equalIgnoringCase_parenthesis (name : Bytes) :
    Bytes.equalIgnoringCase (name ++ [Byte.leftParenthesis]) (utf8 "url(") = Bytes.equalIgnoringCase name urlName := by
  have call : utf8 "url(" = urlName ++ [Byte.leftParenthesis] := by decide
  rw [call, Bool.eq_iff_iff]
  simp [Bytes.equalIgnoringCase]

private theorem nameWith_of_append {name : Bytes} (fits : (nameWith name (u ++ v)).length ≤ u.length)
    (quoted : (nameWith name (u ++ v)).kind = .function → name.equalIgnoringCase urlName = true →
      whitespaceLength ((u ++ v).drop 1) + 1 < u.length) :
    nameWith name u = nameWith name (u ++ v) := by
  cases u with
  | nil =>
    cases v with
    | nil => rfl
    | cons d tail =>
      rw [List.nil_append, nameWith] at fits ⊢
      split at fits
      · rename_i other
        rw [if_pos other]
        rfl
      · split at fits <;> simp at fits
  | cons c rest =>
    rw [List.cons_append, nameWith] at fits ⊢
    rw [List.cons_append, nameWith] at quoted
    rw [nameWith]
    by_cases other : (c != Byte.leftParenthesis) = true
    · rw [if_pos other, if_pos other]
    rw [if_neg other] at fits quoted ⊢
    rw [if_neg other]
    by_cases named : name.equalIgnoringCase urlName = true
    · rw [named, Bool.not_true, Bool.false_or] at fits quoted ⊢
      rw [Bool.false_or]
      have run := whitespaceLength_le rest
      by_cases quote : begins Byte.isQuote ((rest ++ v).drop (whitespaceLength (rest ++ v))) = true
      · rw [if_pos quote] at quoted ⊢
        have inside := quoted rfl rfl
        rw [List.drop_succ_cons, List.drop_zero, List.length_cons] at inside
        have same := whitespaceLength_of_append (u := rest) (v := v) (by omega)
        have some : rest.drop (whitespaceLength rest) ≠ [] := List.ne_nil_of_length_pos (by rw [List.length_drop]; omega)
        rw [← same, List.drop_append_of_le_length run, begins_append_eq _ some] at quote
        rw [if_pos quote]
      · rw [if_neg quote, Token.extend_length, List.length_cons] at fits
        rw [if_neg quote]
        have same := whitespaceLength_of_append (u := rest) (v := v) (by omega)
        have length := List.length_drop (i := whitespaceLength rest) (l := rest)
        rw [← same, List.drop_append_of_le_length run] at quote fits ⊢
        rw [if_neg fun alone => quote (begins_append _ alone v), urlRest_of_append (v := v) (by omega)]
    · rw [Bool.not_eq_true] at named
      rw [named]
      rfl

/-- The text of a function is its name and a parenthesis. -/
theorem take_function {name : Bytes} (h : (nameWith name bytes).kind = .function) :
    (nameWith name bytes).length = 1 ∧ bytes.take 1 = [Byte.leftParenthesis] := by
  cases bytes with
  | nil => exact absurd h (by simp [nameWith])
  | cons c rest =>
    rw [nameWith] at h ⊢
    split at h
    · exact absurd h (by simp)
    rename_i parenthesis
    rw [bne_iff_ne, Decidable.not_not] at parenthesis
    split at h
    · rename_i call
      rw [if_pos call, parenthesis]
      exact ⟨rfl, rfl⟩
    · rcases urlRest_kind (rest.drop (whitespaceLength rest)) with kind | kind <;> simp [kind] at h

private theorem nameLength_le_identLike (bytes : Bytes) :
    nameLength bytes ≤ (identLike bytes).length :=
  Nat.le_add_left _ _

private theorem identLike_of_append (fits : reach (identLike (u ++ v)) (u ++ v) ≤ u.length) :
    identLike u = identLike (u ++ v) := by
  have len := length_le_of_reach fits
  have within := Nat.le_trans (nameLength_le_identLike _) len
  have name := nameLength_of_append within
  have nameFits := nameLength_le u
  have settled : nameWith (u.take (nameLength u)) (u.drop (nameLength u)) =
      nameWith (u.take (nameLength u)) (u.drop (nameLength u) ++ v) := by
    have parts : identLike (u ++ v) =
        (nameWith (u.take (nameLength u)) (u.drop (nameLength u) ++ v)).extend (nameLength u) := by
      rw [identLike, ← name, List.take_append_of_le_length nameFits, List.drop_append_of_le_length nameFits]
    rw [parts] at fits len
    apply nameWith_of_append
    · rw [Token.extend_length] at len
      rw [List.length_drop]
      omega
    · intro function named
      obtain ⟨single, parenthesis⟩ := take_function function
      have whole : (u ++ v).drop (nameLength u) = u.drop (nameLength u) ++ v := List.drop_append_of_le_length nameFits
      have text : (u ++ v).take (nameLength u + 1) = u.take (nameLength u) ++ [Byte.leftParenthesis] := by
        rw [List.take_add, whole, parenthesis, List.take_append_of_le_length nameFits]
      have after : (u ++ v).drop (nameLength u + 1) = (u.drop (nameLength u) ++ v).drop 1 := by
        rw [← whole, List.drop_drop]
      have call : isUrlCall ((nameWith (u.take (nameLength u)) (u.drop (nameLength u) ++ v)).extend (nameLength u))
          (u ++ v) = true := by
        rw [isUrlCall, Token.extend_kind, function, Token.extend_length, single, Nat.add_comm 1, text,
          equalIgnoringCase_parenthesis, named]
        rfl
      rw [reach, if_neg (by simp [function]), if_pos call, Token.extend_length, single, Nat.add_comm 1, after] at fits
      rw [List.length_drop]
      omega
  unfold identLike
  dsimp only
  rw [settled, ← name, List.take_append_of_le_length nameFits, List.drop_append_of_le_length nameFits]

theorem isPrefixOf_append {mark : Bytes} (h : mark.isPrefixOf u = true) (v : Bytes) :
    mark.isPrefixOf (u ++ v) = true := by
  rw [List.isPrefixOf_iff_prefix] at h ⊢
  exact h.trans (List.prefix_append u v)

private theorem isPrefixOf_of_append {mark : Bytes} (fits : mark.length ≤ u.length)
    (h : mark.isPrefixOf (u ++ v) = true) : mark.isPrefixOf u = true := by
  rw [List.isPrefixOf_iff_prefix] at h ⊢
  exact List.prefix_of_prefix_length_le h (List.prefix_append u v) fits

/-- A test that the bytes after the cut cannot change chooses the same token before the cut. -/
private theorem choice_of_append {alone whole : Bool} {yes yes' no no' : Token} (more : alone = true → whole = true)
    (fewer : whole = true → reach yes bytes ≤ n → alone = true ∧ yes' = yes) (other : reach no bytes ≤ n → no' = no)
    (fits : reach (if whole then yes else no) bytes ≤ n) : (if alone then yes' else no') = if whole then yes else no := by
  cases whole with
  | true =>
    obtain ⟨rfl, same⟩ := fewer rfl fits
    exact same
  | false =>
    have notAlone : alone = false := Bool.eq_false_iff.mpr fun holds => Bool.false_ne_true (more holds)
    rw [notAlone]
    exact other fits

private theorem delim_of_append
    (fits : reach ⟨.delim, charLength (c :: (rest ++ v))⟩ (c :: (rest ++ v)) ≤ (c :: rest).length) :
    (⟨.delim, charLength (c :: rest)⟩ : Token) = ⟨.delim, charLength (c :: (rest ++ v))⟩ := by
  have len := length_le_of_reach fits
  rw [charLength_of_append (u := c :: rest) len]
  rfl

private theorem numeric_choice_of_append (number : beginsNumber (u ++ v) = true)
    (fits : reach (numeric (u ++ v)) (u ++ v) ≤ u.length) : beginsNumber u = true ∧ numeric u = numeric (u ++ v) := by
  have len := length_le_of_reach fits
  have within := Nat.le_trans (numberLength_le_numeric _) len
  exact ⟨beginsNumber_of_append within number, numeric_of_append len⟩

/-- The bytes that a token reaches to settle it. -/
theorem next_of_append (some : u ≠ []) (fits : reach (next (u ++ v)) (u ++ v) ≤ u.length) : next u = next (u ++ v) := by
  have len := length_le_of_reach fits
  cases u with
  | nil => exact absurd rfl some
  | cons c rest =>
  rw [List.cons_append] at fits len ⊢
  cases first c with
  | whitespace blank =>
    rw [next_whitespace _ blank] at len ⊢
    rw [next_whitespace _ blank, whitespaceLength_of_append (Nat.le_of_succ_le_succ len)]
  | quote quote =>
    rw [next_quote _ quote] at fits len ⊢
    rw [next_quote _ quote, quotedRest_of_append (Nat.le_of_succ_le_succ len)]
    intro bad
    rw [reach, Token.extend_kind, if_pos bad] at fits
    exact Nat.le_of_succ_le_succ fits
  | punctuation single => rw [next_punctuation _ single, next_punctuation _ single]
  | numberSign same =>
    subst same
    rw [next_numberSign] at fits ⊢
    rw [next_numberSign]
    refine choice_of_append (fun alone => beginsNameItem_append alone v) ?_ delim_of_append fits
    intro item fits
    have len := length_le_of_reach fits
    have within := Nat.le_of_succ_le_succ len
    exact ⟨beginsNameItem_of_append within item, by rw [nameLength_of_append within]⟩
  | atSign same =>
    subst same
    rw [next_atSign] at fits ⊢
    rw [next_atSign]
    refine choice_of_append (fun alone => beginsIdent_append alone v) ?_ delim_of_append fits
    intro ident fits
    have len := length_le_of_reach fits
    have within := Nat.le_of_succ_le_succ len
    exact ⟨beginsIdent_of_append within ident, by rw [nameLength_of_append within]⟩
  | plusSign_fullStop same =>
    rw [next_plusSign_fullStop _ same] at fits ⊢
    rw [next_plusSign_fullStop _ same]
    refine choice_of_append (fun alone => beginsNumber_append alone v) ?_ delim_of_append fits
    exact numeric_choice_of_append (u := c :: rest)
  | hyphen same =>
    subst same
    rw [next_hyphen] at fits ⊢
    rw [next_hyphen]
    refine choice_of_append (fun alone => beginsNumber_append alone v) ?_ ?_ fits
    · exact numeric_choice_of_append (u := Byte.hyphen :: rest)
    intro fits
    refine choice_of_append (fun alone => isPrefixOf_append alone v) ?_ ?_ fits
    · intro close fits
      have len := length_le_of_reach fits
      have within := Nat.le_of_succ_le_succ len
      have two : (utf8 "->").length = 2 := by decide
      exact ⟨isPrefixOf_of_append (two ▸ within) close, rfl⟩
    intro fits
    refine choice_of_append (fun alone => beginsIdent_append alone v) ?_ delim_of_append fits
    intro ident fits
    have within := Nat.le_trans (nameLength_le_identLike _) (length_le_of_reach fits)
    exact ⟨beginsIdent_of_append (u := Byte.hyphen :: rest) within ident,
      identLike_of_append (u := Byte.hyphen :: rest) fits⟩
  | solidus same =>
    subst same
    rw [next_solidus] at fits ⊢
    rw [next_solidus]
    refine choice_of_append (fun alone => begins_append _ alone v) ?_ delim_of_append fits
    intro star fits
    have len := length_le_of_reach fits
    cases rest with
    | nil => exact absurd len (by simp)
    | cons d rest =>
      have within : commentRest (rest ++ v) ≤ rest.length := Nat.le_of_succ_le_succ (Nat.le_of_succ_le_succ len)
      have same := commentRest_of_append within
      refine ⟨star, ?_⟩
      rw [List.drop_succ_cons, List.drop_zero, same]
      rfl
  | lessThan same =>
    subst same
    rw [next_lessThan] at fits ⊢
    rw [next_lessThan]
    refine choice_of_append (fun alone => isPrefixOf_append alone v) ?_ delim_of_append fits
    intro mark fits
    have len := length_le_of_reach fits
    have within := Nat.le_of_succ_le_succ len
    have three : (utf8 "!--").length = 3 := by decide
    exact ⟨isPrefixOf_of_append (three ▸ within) mark, rfl⟩
  | reverseSolidus same =>
    subst same
    rw [next_reverseSolidus] at fits ⊢
    rw [next_reverseSolidus]
    refine choice_of_append (fun alone => beginsEscape_append alone v) ?_ delim_of_append fits
    intro escape fits
    have within := Nat.le_trans (nameLength_le_identLike _) (length_le_of_reach fits)
    exact ⟨beginsEscape_of_append_name (u := Byte.reverseSolidus :: rest) within escape,
      identLike_of_append (u := Byte.reverseSolidus :: rest) fits⟩
  | digit digit =>
    rw [next_digit _ digit] at len ⊢
    rw [next_digit _ digit]
    exact numeric_of_append (u := c :: rest) len
  | nameStart start =>
    rw [next_nameStart _ start] at fits ⊢
    rw [next_nameStart _ start]
    exact identLike_of_append (u := c :: rest) fits
  | delim token =>
    rw [token] at fits ⊢
    rw [token, delim_of_append fits]

private theorem quotedRest_badString {quote : UInt8} (bad : (quotedRest quote bytes).kind = .badString) :
    ∃ c, bytes[(quotedRest quote bytes).length]? = some c ∧ Byte.isNewline c = true := by
  induction bytes using quotedRest.induct quote with
  | case1 => simp [quotedRest] at bad
  | case2 c rest closing =>
    rw [quotedRest, if_pos closing] at bad
    cases bad
  | case3 c rest notClosing newline =>
    rw [quotedRest, if_neg notClosing, if_pos newline]
    exact ⟨c, rfl, newline⟩
  | case4 c rest notClosing notNewline backslash ih =>
    rw [quotedRest, if_neg notClosing, if_neg notNewline, if_pos backslash] at bad ⊢
    obtain ⟨d, here, newline⟩ := ih bad
    rw [List.getElem?_drop, Nat.add_comm] at here
    exact ⟨d, here, newline⟩
  | case5 c rest notClosing notNewline notBackslash ih =>
    rw [quotedRest, if_neg notClosing, if_neg notNewline, if_neg notBackslash] at bad ⊢
    exact ih bad

/-- A newline follows a bad string. -/
theorem next_badString (bad : (next bytes).kind = .badString) :
    ∃ c, bytes[(next bytes).length]? = some c ∧ Byte.isNewline c = true := by
  cases bytes with
  | nil => exact absurd bad (by simp [next])
  | cons c rest =>
    have built := construct c rest
    generalize next (c :: rest) = token at built bad ⊢
    cases built with
    | string =>
      obtain ⟨d, here, newline⟩ := quotedRest_badString bad
      exact ⟨d, here, newline⟩
    | numeric => rcases numeric_kind (c :: rest) with kind | kind | kind <;> simp [kind] at bad
    | identLike => rcases identLike_kind (c :: rest) with kind | kind | kind | kind <;> simp [kind] at bad
    | punctuation single =>
      dsimp only at bad
      exact absurd (bad ▸ ofPunctuation?_mem single) (by decide)
    | _ => simp at bad

private theorem identLike_function (function : (identLike bytes).kind = .function)
    (url : Bytes.equalIgnoringCase (bytes.take (identLike bytes).length) (utf8 "url(") = true) :
    begins Byte.isQuote ((bytes.drop (identLike bytes).length).drop
      (whitespaceLength (bytes.drop (identLike bytes).length))) = true := by
  have parts : identLike bytes =
      (nameWith (bytes.take (nameLength bytes)) (bytes.drop (nameLength bytes))).extend (nameLength bytes) := rfl
  rw [parts, Token.extend_kind] at function
  obtain ⟨single, parenthesis⟩ := take_function function
  rw [parts, Token.extend_length, single, Nat.add_comm] at url ⊢
  rw [List.take_add, parenthesis, equalIgnoringCase_parenthesis] at url
  cases left : bytes.drop (nameLength bytes) with
  | nil => simp [left] at parenthesis
  | cons c rest =>
    have after : bytes.drop (nameLength bytes + 1) = rest := by
      rw [← List.drop_drop, left]
      rfl
    rw [left, nameWith, url] at function
    split at function
    · cases function
    split at function
    · rename_i call
      rw [after]
      simpa using call
    · rcases urlRest_kind (rest.drop (whitespaceLength rest)) with kind | kind <;> simp [kind] at function

/-- A quote follows `url(`, maybe after whitespace. -/
theorem next_isUrlCall (call : isUrlCall (next bytes) bytes = true) :
    begins Byte.isQuote ((bytes.drop (next bytes).length).drop
      (whitespaceLength (bytes.drop (next bytes).length))) = true := by
  rw [isUrlCall, Bool.and_eq_true, beq_iff_eq] at call
  obtain ⟨function, url⟩ := call
  cases bytes with
  | nil => exact absurd function (by simp [next])
  | cons c rest =>
    have built := construct c rest
    generalize next (c :: rest) = token at built function url ⊢
    cases built with
    | string => rcases quotedRest_kind c rest with kind | kind <;> simp [kind] at function
    | numeric => rcases numeric_kind (c :: rest) with kind | kind | kind <;> simp [kind] at function
    | identLike => exact identLike_function function url
    | punctuation single =>
      dsimp only at function
      exact absurd (function ▸ ofPunctuation?_mem single) (by decide)
    | _ => simp at function

private theorem getElem?_of_lt_whitespaceLength {i : Nat} (inside : i < whitespaceLength bytes) :
    ∃ c, bytes[i]? = some c ∧ Byte.isWhitespace c = true := by
  induction bytes generalizing i with
  | nil => exact absurd inside (Nat.not_lt_zero i)
  | cons c rest ih =>
    cases blank : Byte.isWhitespace c with
    | false => simp [whitespaceLength, runLength, blank] at inside
    | true =>
      cases i with
      | zero => exact ⟨c, rfl, blank⟩
      | succ i =>
        rw [whitespaceLength_cons blank] at inside
        exact ih (Nat.lt_of_succ_lt_succ inside)

/-- Between the end of a token and its reach there are only whitespace and a quote. -/
private theorem getElem?_of_lt_reach {i : Nat} (past : (next bytes).length ≤ i)
    (inside : i < reach (next bytes) bytes) :
    ∃ c, bytes[i]? = some c ∧ (Byte.isWhitespace c = true ∨ Byte.isQuote c = true) := by
  unfold reach at inside
  split at inside
  · rename_i bad
    obtain ⟨c, here, newline⟩ := next_badString bad
    obtain rfl : i = (next bytes).length := by omega
    exact ⟨c, here, .inl (by simp [Byte.isWhitespace, newline])⟩
  split at inside
  · rename_i call
    have quoted := next_isUrlCall call
    obtain ⟨j, rfl⟩ : ∃ j, i = (next bytes).length + j := ⟨i - (next bytes).length, by omega⟩
    rw [← List.getElem?_drop]
    generalize bytes.drop (next bytes).length = rest at *
    rcases Nat.lt_or_ge j (whitespaceLength rest) with blank | stop
    · obtain ⟨c, here, blank⟩ := getElem?_of_lt_whitespaceLength blank
      exact ⟨c, here, .inl blank⟩
    · obtain rfl : j = whitespaceLength rest := by omega
      cases left : rest.drop (whitespaceLength rest) with
      | nil => simp [left, begins] at quoted
      | cons c tail =>
        rw [left] at quoted
        refine ⟨c, ?_, .inr quoted⟩
        rw [← Nat.add_zero (whitespaceLength rest), ← List.getElem?_drop, left]
        rfl
  · omega

theorem tokens_of_append {found : List Token} (scan : tokens (u ++ v) = found ++ tokens v)
    (size : Token.total found = u.length)
    (settled : ∀ k token, found[k]? = some token → reach token ((u ++ v).drop (Token.total (found.take k))) ≤
      u.length - Token.total (found.take k)) : tokens u = found := by
  induction found generalizing u with
  | nil =>
    rw [List.eq_nil_of_length_eq_zero size.symm, tokens]
  | cons token found ih =>
    have long : 0 < token.length := length_pos_of_mem_tokens (by rw [scan]; exact List.mem_cons_self)
    rw [Token.total_cons] at size
    have some : u ≠ [] := List.ne_nil_of_length_pos (by omega)
    rw [tokens_ne_nil (by simp [some]), List.cons_append] at scan
    obtain ⟨rfl, rest⟩ := List.cons.inj scan
    have same : next u = next (u ++ v) := next_of_append some (settled 0 _ rfl)
    have cut : (u ++ v).drop (next (u ++ v)).length = u.drop (next (u ++ v)).length ++ v :=
      List.drop_append_of_le_length (by omega)
    rw [cut] at rest
    rw [tokens_ne_nil some, same, ih rest (by rw [List.length_drop]; omega)]
    intro k token here
    have later := settled (k + 1) token here
    rw [List.take_succ_cons, Token.total_cons, ← List.drop_drop, cut] at later
    rw [List.length_drop]
    omega

section Cut

variable {found : List Token} {k : Nat} {token : Token}

/-- A token of `u ++ v` that ends in `u` is the next one of what is left of `u`, with `v` after it. -/
private theorem next_of_found (scan : tokens (u ++ v) = found ++ tokens v) (size : Token.total found = u.length)
    (here : found[k]? = some token) :
    (u ++ v).drop (Token.total (found.take k)) = u.drop (Token.total (found.take k)) ++ v ∧
      token = next (u.drop (Token.total (found.take k)) ++ v) ∧
      Token.total (found.take k) + token.length ≤ u.length := by
  have inRange := (List.getElem?_eq_some_iff.mp here).1
  have fits := Token.total_take_le found (k + 1)
  rw [Token.total_take_succ here, size] at fits
  have cut : (u ++ v).drop (Token.total (found.take k)) = u.drop (Token.total (found.take k)) ++ v :=
    List.drop_append_of_le_length (by omega)
  have atK : (tokens (u ++ v))[k]? = some token := by rw [scan, List.getElem?_append_left inRange, here]
  obtain ⟨c, rest, left, same⟩ := getElem?_tokens atK
  rw [scan, List.take_append_of_le_length (Nat.le_of_lt inRange), cut] at left
  exact ⟨cut, by rw [left, same], fits⟩

private theorem length_le_of_total_take (scan : tokens (u ++ v) = found ++ tokens v)
    (all : Token.total found ≤ Token.total (found.take k)) : found.length ≤ k := by
  refine Nat.not_lt.mp fun more => ?_
  have here : found[k]? = some found[k] := List.getElem?_eq_getElem more
  have long : 0 < found[k].length :=
    length_pos_of_mem_tokens (by rw [scan]; exact List.mem_append_left _ (List.getElem_mem more))
  have fits := Token.total_take_le found (k + 1)
  rw [Token.total_take_succ here] at fits
  omega

/-- Whitespace that goes on to the cut is the last token. -/
private theorem whiteSpace_to_cut (scan : tokens (u ++ v) = found ++ tokens v) (size : Token.total found = u.length)
    (here : found[k]? = some token) (inside : Token.total (found.take k) < u.length)
    (long : u.length - Token.total (found.take k) ≤ whitespaceLength (u.drop (Token.total (found.take k)) ++ v)) :
    k + 1 = found.length ∧ token.kind = .whiteSpace := by
  obtain ⟨-, same, -⟩ := next_of_found scan size here
  have inRange := (List.getElem?_eq_some_iff.mp here).1
  have length := List.length_drop (i := Token.total (found.take k)) (l := u)
  cases left : u.drop (Token.total (found.take k)) with
  | nil =>
    rw [left, List.length_nil] at length
    omega
  | cons c rest =>
    rw [left, List.length_cons] at length
    rw [left, List.cons_append] at long same
    have run : 0 < whitespaceLength (c :: (rest ++ v)) := by omega
    obtain ⟨d, first, blank⟩ := getElem?_of_lt_whitespaceLength run
    obtain rfl : c = d := Option.some.inj first
    rw [whitespaceLength_cons blank] at long
    rw [next_whitespace _ blank] at same
    subst same
    have all : Token.total found ≤ Token.total (found.take (k + 1)) := by
      rw [Token.total_take_succ here, size]
      dsimp only
      omega
    have := length_le_of_total_take scan all
    exact ⟨by omega, rfl⟩

/-- Only the last token, or `url(` with whitespace after it, can reach beyond the cut. -/
theorem reach_le_or (scan : tokens (u ++ v) = found ++ tokens v) (size : Token.total found = u.length)
    (here : found[k]? = some token) :
    reach token ((u ++ v).drop (Token.total (found.take k))) ≤ u.length - Token.total (found.take k) ∨
      k + 1 = found.length ∧
        (token.kind = .badString ∨ isUrlCall token ((u ++ v).drop (Token.total (found.take k))) = true) ∨
      k + 2 = found.length ∧ isUrlCall token ((u ++ v).drop (Token.total (found.take k))) = true ∧
        ∃ last, found[k + 1]? = some last ∧ last.kind = .whiteSpace := by
  obtain ⟨cut, -, fits⟩ := next_of_found scan size here
  have inRange := (List.getElem?_eq_some_iff.mp here).1
  have succ := Token.total_take_succ here
  rcases Nat.lt_or_ge (Token.total (found.take k) + token.length) u.length with inside | whole
  · rw [cut]
    unfold reach
    split
    · exact .inl (by omega)
    split
    · rename_i call
      by_cases enough : token.length + whitespaceLength ((u.drop (Token.total (found.take k)) ++ v).drop token.length) + 1 ≤
          u.length - Token.total (found.take k)
      · exact .inl enough
      have more : k + 1 < found.length := by
        refine Nat.lt_of_le_of_ne inRange fun only => ?_
        rw [only, List.take_length, size] at succ
        omega
      have after : found[k + 1]? = some found[k + 1] := List.getElem?_eq_getElem more
      have left : (u.drop (Token.total (found.take k)) ++ v).drop token.length =
          u.drop (Token.total (found.take (k + 1))) ++ v := by
        rw [List.drop_append_of_le_length (by rw [List.length_drop]; omega), List.drop_drop, succ]
      rw [left] at enough
      obtain ⟨final, blank⟩ := whiteSpace_to_cut scan size after (by omega) (by omega)
      exact .inr (.inr ⟨final, call, _, after, blank⟩)
    · exact .inl (by omega)
  · -- with nothing of `u` after it the token is the last one
    have := length_le_of_total_take scan (k := k + 1) (by omega)
    have last : k + 1 = found.length := by omega
    rw [cut]
    unfold reach
    split
    · rename_i bad
      exact .inr (.inl ⟨last, .inl bad⟩)
    split
    · rename_i call
      exact .inr (.inl ⟨last, .inr call⟩)
    · exact .inl (by omega)

/-- In front of what is neither whitespace nor a quote a text may be cut behind any token. -/
theorem tokens_of_quiet (scan : tokens (u ++ v) = found ++ tokens v) (size : Token.total found = u.length)
    (quiet : ∀ c ∈ v.head?, Byte.isWhitespace c = false ∧ Byte.isQuote c = false) : tokens u = found := by
  refine tokens_of_append scan size fun k token here => ?_
  obtain ⟨cut, same, fits⟩ := next_of_found scan size here
  rw [cut, ← List.length_drop]
  refine Nat.not_lt.mp fun beyond => ?_
  subst same
  obtain ⟨c, first, blank_or_quote⟩ := getElem?_of_lt_reach (by rw [List.length_drop]; omega) beyond
  rw [List.getElem?_append_right (Nat.le_refl _), Nat.sub_self, ← List.head?_eq_getElem?] at first
  obtain ⟨notBlank, notQuote⟩ := quiet c first
  rcases blank_or_quote with blank | quote
  · exact absurd (notBlank ▸ blank) Bool.false_ne_true
  · exact absurd (notQuote ▸ quote) Bool.false_ne_true

/-- What begins with whitespace or a quote shows it in the kind of its first token. -/
theorem quiet_of_kind (blank : (next bytes).kind ≠ .whiteSpace) (string : (next bytes).kind ≠ .string)
    (bad : (next bytes).kind ≠ .badString) :
    ∀ c ∈ bytes.head?, Byte.isWhitespace c = false ∧ Byte.isQuote c = false := by
  cases bytes with
  | nil => simp
  | cons c rest =>
    simp only [List.head?_cons, Option.mem_def, Option.some.injEq, forall_eq']
    constructor
    · refine Bool.eq_false_iff.mpr fun whitespace => blank ?_
      rw [next_whitespace _ whitespace]
    · refine Bool.eq_false_iff.mpr fun quote => ?_
      rw [next_quote _ quote, Token.extend_kind] at string bad
      rcases quotedRest_kind c rest with kind | kind
      · exact string kind
      · exact bad kind

/-- Behind a token of another kind than these a text may be cut. -/
theorem tokens_of_last (scan : tokens (u ++ v) = found ++ tokens v) (size : Token.total found = u.length)
    (last : ∀ token ∈ found.getLast?, token.kind ≠ .badString ∧ token.kind ≠ .function ∧ token.kind ≠ .whiteSpace) :
    tokens u = found := by
  have last_of_succ : ∀ {k token}, found[k]? = some token → k + 1 = found.length →
      token.kind ≠ .badString ∧ token.kind ≠ .function ∧ token.kind ≠ .whiteSpace := by
    intro k token here only
    refine last token ?_
    rw [List.getLast?_eq_getElem?, ← only]
    exact here
  refine tokens_of_append scan size fun k token here => ?_
  rcases reach_le_or scan size here with settled | ⟨only, bad | call⟩ | ⟨two, -, final, after, blank⟩
  · exact settled
  · exact absurd bad (last_of_succ here only).1
  · rw [isUrlCall, Bool.and_eq_true, beq_iff_eq] at call
    exact absurd call.1 (last_of_succ here only).2.1
  · exact absurd blank (last_of_succ after two).2.2

end Cut

end CssLex.Scan
