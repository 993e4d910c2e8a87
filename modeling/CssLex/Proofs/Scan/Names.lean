import CssLex.Proofs.Number.Inert
import CssLex.Proofs.Number.Scanned
import CssLex.Proofs.Scan.Escapes

/-!
Identifiers, at-keywords, hashes and functions are the texts of a grammar (`scan_names`). The grammar is ambiguous: a
hex digit behind an escape may belong to it or to the name. The scanner gives it to the escape, and finds the same texts.
-/

namespace CssLex

namespace Scan

variable {bytes body rest name u v : Bytes} {b c : UInt8}

/-- Name bytes and escapes in any number. -/
inductive NameItems : Bytes → Prop where
  | nil : NameItems []
  | byte {b : UInt8} {rest : Bytes} (name : Byte.isName b = true) (items : NameItems rest) : NameItems (b :: rest)
  | escape {body rest : Bytes} (escaped : Escaped body) (items : NameItems rest) :
      NameItems (Byte.reverseSolidus :: (body ++ rest))

/-- A letter, an underscore, a character beyond ASCII or an escape. -/
inductive NameStart : Bytes → Prop where
  | letter {b : UInt8} (letter : Byte.isLetter b = true) : NameStart [b]
  | underscore : NameStart [Byte.underscore]
  | wide (char : Char) (beyond : 0x80 ≤ char.toNat) : NameStart (String.utf8EncodeChar char)
  | escape {body : Bytes} (escaped : Escaped body) : NameStart (Byte.reverseSolidus :: body)

/-- Two hyphens, or a name start that may have one hyphen in front, and then name items. -/
inductive Ident : Bytes → Prop where
  | hyphens {rest : Bytes} (items : NameItems rest) : Ident (Byte.hyphen :: Byte.hyphen :: rest)
  | hyphen {first rest : Bytes} (start : NameStart first) (items : NameItems rest) :
      Ident (Byte.hyphen :: (first ++ rest))
  | plain {first rest : Bytes} (start : NameStart first) (items : NameItems rest) : Ident (first ++ rest)

private theorem not_isName_reverseSolidus : Byte.isName Byte.reverseSolidus = false := by decide

private theorem isName_hyphen : Byte.isName Byte.hyphen = true := by decide

/-- Every byte of a character beyond ASCII is a name start. -/
private theorem isNameStart_of_wide {char : Char} (beyond : 0x80 ≤ char.toNat) :
    ∀ c ∈ String.utf8EncodeChar char, Byte.isNameStart c = true := by
  have wide : ¬(String.utf8EncodeChar char).length = 1 := by
    rw [String.length_utf8EncodeChar, Char.utf8Size_eq_one_iff]
    exact Nat.not_le.mpr beyond
  obtain ⟨lead, continued, encoded, -, single, -, more⟩ := exists_utf8EncodeChar char
  rw [encoded] at wide ⊢
  have first : ¬lead < 0x80 := by
    intro ascii
    simp [single.mp ascii] at wide
  rw [List.forall_mem_cons]
  exact ⟨isNameStart_of_not_ascii first, fun c member =>
    isNameStart_of_not_ascii (not_ascii_of_isContinuation (more c member))⟩

/-- An ASCII character is one byte. -/
private theorem eq_of_not_wide {char : Char} (beyond : ¬0x80 ≤ char.toNat)
    (same : c :: rest = String.utf8EncodeChar char ++ u) : rest = u ∧ c < 0x80 := by
  have narrow : (String.utf8EncodeChar char).length = 1 := by
    rw [String.length_utf8EncodeChar, Char.utf8Size_eq_one_iff]
    exact Nat.le_of_lt_succ (Nat.not_le.mp beyond)
  obtain ⟨continued, encoded, -, -, single, -⟩ := exists_continued same
  rw [encoded, List.length_cons, Nat.succ_inj, List.length_eq_zero_iff] at narrow
  have ascii := single.mpr narrow
  exact ⟨(eq_of_ascii same ascii).2, ascii⟩

/-! ## What the scanner takes is in the grammar -/

private theorem NameItems.names_append (all : ∀ c ∈ u, Byte.isName c = true) (items : NameItems rest) :
    NameItems (u ++ rest) := by
  induction u with
  | nil => exact items
  | cons c u ih =>
    rw [List.forall_mem_cons] at all
    exact .byte all.1 (ih all.2)

private theorem nameLength_wide {char : Char} (beyond : 0x80 ≤ char.toNat) (rest : Bytes) :
    nameLength (String.utf8EncodeChar char ++ rest) = (String.utf8EncodeChar char).length + nameLength rest :=
  nameLength_names (fun c member => Byte.isName_of_isNameStart (isNameStart_of_wide beyond c member)) rest

private theorem nameLength_escape (escape : beginsEscape (Byte.reverseSolidus :: rest) = true) :
    nameLength (Byte.reverseSolidus :: rest) = escapeLength rest + nameLength (rest.drop (escapeLength rest)) + 1 := by
  rw [nameLength, if_neg (Bool.eq_false_iff.mp not_isName_reverseSolidus), if_pos escape]
  omega

private theorem begins_of_beginsEscape (escape : beginsEscape (c :: rest) = true) :
    c = Byte.reverseSolidus ∧ begins (!Byte.isNewline ·) rest = true := by
  simpa [beginsEscape] using escape

/-- The scanner takes name items only. -/
private theorem nameItems_take (valid : IsUtf8 bytes) : NameItems (bytes.take (nameLength bytes)) := by
  -- a character beyond ASCII is several steps of the scanner, so the induction is on how much is left
  induction length : bytes.length using Nat.strong_induction_on generalizing bytes with
  | _ n ih =>
    subst length
    cases bytes with
    | nil =>
      rw [List.take_nil]
      exact .nil
    | cons c rest =>
      obtain ⟨char, more, same, left⟩ := valid.exists_char
      by_cases beyond : 0x80 ≤ char.toNat
      · have long := String.length_utf8EncodeChar char
        have positive := Char.utf8Size_pos char
        rw [same, nameLength_wide beyond, List.take_length_add_append]
        refine .names_append (fun c member => Byte.isName_of_isNameStart (isNameStart_of_wide beyond c member))
          (ih _ ?_ left rfl)
        rw [same, List.length_append]
        omega
      · obtain ⟨rfl, ascii⟩ := eq_of_not_wide beyond same
        by_cases name : Byte.isName c = true
        · rw [nameLength, if_pos name, List.take_succ_cons]
          exact .byte name (ih _ (Nat.lt_succ_self _) left rfl)
        · by_cases escape : beginsEscape (c :: rest) = true
          · obtain ⟨rfl, some⟩ := begins_of_beginsEscape escape
            obtain ⟨escaped, behind⟩ := escaped_take left some
            rw [nameLength_escape escape, List.take_succ_cons, List.take_add]
            refine .escape escaped (ih _ ?_ behind rfl)
            rw [List.length_drop, List.length_cons]
            omega
          · rw [nameLength, if_neg name, if_neg escape]
            exact .nil

/-- A name that begins with a name start or an escape is one and name items. -/
private theorem nameStart_take (valid : IsUtf8 bytes)
    (begun : begins Byte.isNameStart bytes = true ∨ beginsEscape bytes = true) :
    ∃ first items, bytes.take (nameLength bytes) = first ++ items ∧ NameStart first ∧ NameItems items := by
  cases bytes with
  | nil => simp [begins, beginsEscape] at begun
  | cons c rest =>
    obtain ⟨char, more, same, left⟩ := valid.exists_char
    by_cases beyond : 0x80 ≤ char.toNat
    · rw [same, nameLength_wide beyond, List.take_length_add_append]
      exact ⟨_, _, rfl, .wide char beyond, nameItems_take left⟩
    · obtain ⟨rfl, ascii⟩ := eq_of_not_wide beyond same
      rcases begun with start | escape
      · have narrow : Byte.isLetter c = true ∨ c = Byte.underscore := by
          simpa [begins, Byte.isNameStart, UInt8.not_le.mpr ascii] using start
        rw [nameLength, if_pos (Byte.isName_of_isNameStart start), List.take_succ_cons]
        refine ⟨[c], _, rfl, ?_, nameItems_take left⟩
        rcases narrow with letter | rfl
        · exact .letter letter
        · exact .underscore
      · obtain ⟨rfl, some⟩ := begins_of_beginsEscape escape
        obtain ⟨escaped, behind⟩ := escaped_take left some
        rw [nameLength_escape escape, List.take_succ_cons, List.take_add]
        exact ⟨_, _, List.cons_append.symm, .escape escaped, nameItems_take behind⟩

/-- The name that the scanner takes where an identifier begins is an identifier. -/
private theorem ident_take (valid : IsUtf8 bytes) (begun : beginsIdent bytes = true) :
    Ident (bytes.take (nameLength bytes)) := by
  cases bytes with
  | nil => cases begun
  | cons c rest =>
    rw [beginsIdent] at begun
    by_cases hyphen : c = Byte.hyphen
    · subst hyphen
      have left := valid.tail (by decide)
      rw [if_pos (beq_self_eq_true _), Bool.or_eq_true] at begun
      rw [nameLength, if_pos isName_hyphen, List.take_succ_cons]
      by_cases second : begins (· == Byte.hyphen) rest = true
      · cases rest with
        | nil => cases second
        | cons d rest =>
          obtain rfl : d = Byte.hyphen := beq_iff_eq.mp second
          rw [nameLength, if_pos isName_hyphen, List.take_succ_cons]
          exact .hyphens (nameItems_take (left.tail (by decide)))
      · have start : begins Byte.isNameStart rest = true ∨ beginsEscape rest = true := by
          refine begun.imp_left ?_
          cases rest <;> simp_all [begins]
        obtain ⟨first, items, same, start, items⟩ := nameStart_take left start
        rw [same]
        exact .hyphen start items
    · rw [if_neg (by simpa using hyphen), Bool.or_eq_true] at begun
      obtain ⟨first, items, same, start, items⟩ := nameStart_take valid begun
      rw [same]
      exact .plain start items

/-! ## What is in the grammar is taken -/

/-- A name or the escape at its end could go on with these. -/
def continuesName (c : UInt8) : Bool := Byte.isName c || Byte.isWhitespace c || c == Byte.reverseSolidus

/-- What an escape may take of the name items behind it leaves name items. -/
private theorem NameItems.tail (part : Byte.isHexDigit b = true ∨ Byte.isWhitespace b = true)
    (items : NameItems (b :: rest)) : NameItems rest := by
  cases items with
  | byte _ items => exact items
  | escape escaped items => exact absurd part (by decide)

private theorem not_begins_of_not_continuesName {p : UInt8 → Bool}
    (continues : ∀ c, p c = true → continuesName c = true)
    (stop : begins continuesName v = false) : begins p v = false :=
  Bool.eq_false_iff.mpr fun some => Bool.eq_false_iff.mp stop (begins_imp continues some)

private theorem Escaped.begins (escaped : Escaped body) (rest : Bytes) :
    beginsEscape (Byte.reverseSolidus :: (body ++ rest)) = true := by
  simp [beginsEscape, begins_append _ escaped.not_newline]

/-- Name items are taken whole where nothing could go on with them. -/
theorem nameLength_items (items : NameItems bytes) (stop : begins continuesName v = false) :
    nameLength (bytes ++ v) = bytes.length := by
  induction length : bytes.length using Nat.strong_induction_on generalizing bytes with
  | _ n ih =>
    subst length
    cases items with
    | nil =>
      cases v with
      | nil => simp [nameLength]
      | cons c v =>
        rw [begins, continuesName, Bool.or_eq_false_iff, Bool.or_eq_false_iff] at stop
        obtain ⟨⟨name, -⟩, backslash⟩ := stop
        simp [nameLength, beginsEscape, name, backslash]
    | @byte b rest name items =>
      rw [List.cons_append, nameLength, if_pos name, ih _ (Nat.lt_succ_self _) items rfl, List.length_cons]
    | @escape body rest escaped items =>
      have noDigit : Scan.begins Byte.isHexDigit v = false := by
        refine not_begins_of_not_continuesName (fun c hex => ?_) stop
        simp [continuesName, Byte.isName_of_isHexDigit hex]
      have noBlank : Scan.begins Byte.isWhitespace v = false := by
        refine not_begins_of_not_continuesName (fun c white => ?_) stop
        simp [continuesName, white]
      obtain ⟨more, fits, long, left⟩ := escapeLength_escaped (fun _ _ => NameItems.tail) escaped items noDigit noBlank
      rw [List.cons_append, List.append_assoc, nameLength_escape (escaped.begins _), long, ← List.drop_drop,
        List.drop_left, List.drop_append_of_le_length fits, ih _ ?_ left rfl, List.length_drop, List.length_cons,
        List.length_append]
      · omega
      · rw [List.length_drop, List.length_cons, List.length_append]
        omega

private theorem NameStart.append_items (start : NameStart u) (items : NameItems rest) : NameItems (u ++ rest) := by
  cases start with
  | letter letter => exact .byte (Byte.isName_of_isNameStart (Byte.isNameStart_of_isLetter letter)) items
  | underscore => exact .byte (by decide) items
  | wide char beyond =>
    exact .names_append (fun c member => Byte.isName_of_isNameStart (isNameStart_of_wide beyond c member)) items
  | escape escaped => exact .escape escaped items

private theorem NameStart.begins (start : NameStart u) (v : Bytes) :
    Scan.begins Byte.isNameStart (u ++ v) = true ∨ beginsEscape (u ++ v) = true := by
  cases start with
  | letter letter => exact .inl (Byte.isNameStart_of_isLetter letter)
  | underscore => exact .inl rfl
  | wide char beyond =>
    obtain ⟨lead, continued, encoded, -⟩ := exists_utf8EncodeChar char
    have start := isNameStart_of_wide beyond
    rw [encoded] at start ⊢
    exact .inl (start lead List.mem_cons_self)
  | escape escaped => exact .inr (escaped.begins v)

private theorem Ident.items (ident : Ident bytes) : NameItems bytes := by
  cases ident with
  | hyphens items => exact .byte isName_hyphen (.byte isName_hyphen items)
  | hyphen start items => exact .byte isName_hyphen (start.append_items items)
  | plain start items => exact start.append_items items

private theorem Ident.begins (ident : Ident bytes) (v : Bytes) : beginsIdent (bytes ++ v) = true := by
  cases ident with
  | hyphens items => rfl
  | @hyphen first rest start items =>
    rw [List.cons_append, List.append_assoc, beginsIdent, if_pos (beq_self_eq_true _), Bool.or_eq_true]
    refine (start.begins (rest ++ v)).imp_left fun start => begins_imp ?_ start
    intro c start
    rw [start, Bool.true_or]
  | @plain first rest start items =>
    have begun := start.begins (rest ++ v)
    rw [List.append_assoc]
    cases all : first ++ (rest ++ v) with
    | nil => simp [all, Scan.begins, beginsEscape] at begun
    | cons c more =>
      rw [all] at begun
      have hyphen : (c == Byte.hyphen) = false := by
        rcases begun with start | escape
        · exact Byte.not_hyphen_of_isNameStart start
        · obtain ⟨rfl, -⟩ := begins_of_beginsEscape escape
          rfl
      rw [beginsIdent, hyphen, if_neg Bool.false_ne_true, Bool.or_eq_true]
      exact begun

private theorem nameLength_self (items : NameItems bytes) : nameLength bytes = bytes.length := by
  have whole := nameLength_items items (v := []) rfl
  rwa [List.append_nil] at whole

theorem ident_iff (valid : IsUtf8 bytes) :
    Ident bytes ↔ beginsIdent bytes = true ∧ nameLength bytes = bytes.length := by
  constructor
  · intro ident
    have begun := ident.begins []
    rw [List.append_nil] at begun
    exact ⟨begun, nameLength_self ident.items⟩
  · rintro ⟨begun, all⟩
    have ident := ident_take valid begun
    rwa [all, List.take_length] at ident

theorem tokens_ident_iff (valid : IsUtf8 bytes) : tokens bytes = [⟨.ident, bytes.length⟩] ↔ Ident bytes := by
  rw [ident_iff valid]
  constructor
  · intro single
    obtain ⟨some, first⟩ := (tokens_single_iff rfl).mp single
    obtain ⟨c, rest, rfl⟩ := List.exists_cons_of_ne_nil some
    have made := made c rest
    rw [first] at made
    obtain ⟨begun, same⟩ : beginsIdent (c :: rest) = true ∧ ⟨.ident, (c :: rest).length⟩ = identLike (c :: rest) := made
    refine ⟨begun, ?_⟩
    rw [← (identLike_ident (by rw [← same])).1, ← same]
  · rintro ⟨begun, all⟩
    exact tokens_name begun all

theorem tokens_atKeyword_iff (valid : IsUtf8 bytes) :
    tokens bytes = [⟨.atKeyword, bytes.length⟩] ↔ ∃ name, bytes = Byte.atSign :: name ∧ Ident name := by
  rw [tokens_single_iff rfl]
  constructor
  · rintro ⟨some, first⟩
    obtain ⟨c, rest, rfl⟩ := List.exists_cons_of_ne_nil some
    have made := made c rest
    rw [first] at made
    obtain ⟨rfl, begun, same⟩ : c = Byte.atSign ∧ beginsIdent rest = true ∧
      (⟨.atKeyword, (c :: rest).length⟩ : Token) = ⟨.atKeyword, nameLength rest + 1⟩ := made
    simp only [Token.mk.injEq, List.length_cons, true_and, Nat.succ_inj] at same
    exact ⟨rest, rfl, (ident_iff (valid.tail (by decide))).mpr ⟨begun, same.symm⟩⟩
  · rintro ⟨name, rfl, ident⟩
    obtain ⟨begun, all⟩ := (ident_iff (valid.tail (by decide))).mp ident
    refine ⟨by simp, ?_⟩
    rw [next_atSign, if_pos begun, all, List.length_cons]

theorem tokens_hash_iff (valid : IsUtf8 bytes) :
    tokens bytes = [⟨.hash, bytes.length⟩] ↔ ∃ items, bytes = Byte.numberSign :: items ∧ items ≠ [] ∧ NameItems items := by
  rw [tokens_single_iff rfl]
  constructor
  · rintro ⟨some, first⟩
    obtain ⟨c, rest, rfl⟩ := List.exists_cons_of_ne_nil some
    have made := made c rest
    rw [first] at made
    obtain ⟨rfl, begun, same⟩ : c = Byte.numberSign ∧ beginsNameItem rest = true ∧
      (⟨.hash, (c :: rest).length⟩ : Token) = ⟨.hash, nameLength rest + 1⟩ := made
    simp only [Token.mk.injEq, List.length_cons, true_and, Nat.succ_inj] at same
    have items := nameItems_take (valid.tail (by decide))
    rw [← same, List.take_length] at items
    refine ⟨rest, rfl, ?_, items⟩
    rintro rfl
    cases begun
  · rintro ⟨rest, rfl, some, items⟩
    have all := nameLength_self items
    have positive : 0 < nameLength rest := by
      rw [all]
      exact List.length_pos_iff.mpr some
    have begun := beginsNameItem_of_nameLength_pos positive
    refine ⟨by simp, ?_⟩
    rw [next_numberSign, if_pos begun, all, List.length_cons]

/-- Before a parenthesis at the end of input a name is a function, if it is not `url`. -/
private theorem nameWith_parenthesis (name : Bytes) : nameWith name [Byte.leftParenthesis] =
    if name.equalIgnoringCase urlName then ⟨.url, 1⟩ else ⟨.function, 1⟩ := by
  cases url : name.equalIgnoringCase urlName <;>
    simp [nameWith, url, whitespaceLength, runLength, begins, urlRest, Token.extend]

theorem tokens_function_iff (valid : IsUtf8 bytes) : tokens bytes = [⟨.function, bytes.length⟩] ↔
    ∃ name, bytes = name ++ [Byte.leftParenthesis] ∧ Ident name ∧ name.equalIgnoringCase (utf8 "url") = false := by
  rw [tokens_single_iff rfl]
  constructor
  · rintro ⟨some, first⟩
    obtain ⟨c, rest, rfl⟩ := List.exists_cons_of_ne_nil some
    have made := made c rest
    rw [first] at made
    obtain ⟨begun, same⟩ : beginsIdent (c :: rest) = true ∧ ⟨.function, (c :: rest).length⟩ = identLike (c :: rest) :=
      made
    generalize c :: rest = bytes at *
    rw [identLike] at same
    have kind := congrArg Token.kind same
    have length : bytes.length = _ := congrArg Token.length same
    rw [Token.extend_kind] at kind
    obtain ⟨single, parenthesis⟩ := take_function kind.symm
    rw [Token.extend_length, single] at length
    have behind : bytes.drop (nameLength bytes) = [Byte.leftParenthesis] := by
      rwa [List.take_of_length_le (by rw [List.length_drop]; omega)] at parenthesis
    refine ⟨bytes.take (nameLength bytes), ?_, ident_take valid begun, ?_⟩
    · rw [← behind, List.take_append_drop]
    · rw [behind, nameWith_parenthesis] at kind
      refine Bool.eq_false_iff.mpr fun url => ?_
      rw [urlName, if_pos url] at kind
      cases kind
  · rintro ⟨name, rfl, ident, notUrl⟩
    have begun := ident.begins [Byte.leftParenthesis]
    have all := nameLength_items ident.items (v := [Byte.leftParenthesis]) rfl
    have mark : (utf8 "-->").isPrefixOf (name ++ [Byte.leftParenthesis]) = false := by
      refine Bool.eq_false_iff.mpr fun mark => ?_
      have stop := drop_nameLength_of_mark mark
      rw [all, List.drop_left] at stop
      exact absurd stop (by decide)
    have same : next (name ++ [Byte.leftParenthesis]) = identLike (name ++ [Byte.leftParenthesis]) := by
      cases name with
      | nil => exact next_of_beginsIdent begun mark
      | cons c rest => exact next_of_beginsIdent begun mark
    refine ⟨by simp, ?_⟩
    rw [same, identLike, all, List.drop_left, List.take_left, nameWith_parenthesis, urlName, notUrl]
    simp [Token.extend, Nat.add_comm]

end Scan

namespace Buffer

/-- A text is one identifier, one at-keyword, one hash or one function if and only if it is in the grammar of these. -/
theorem scan_names (s : String) : ∃ tokens, (ofText (Text.ofString s)).tokens 0 = .ok tokens ∧
    (tokens = [⟨.ident, (Text.ofString s).size⟩] ↔ Scan.Ident (utf8 s)) ∧
    (tokens = [⟨.atKeyword, (Text.ofString s).size⟩] ↔ ∃ name, utf8 s = Byte.atSign :: name ∧ Scan.Ident name) ∧
    (tokens = [⟨.hash, (Text.ofString s).size⟩] ↔
      ∃ items, utf8 s = Byte.numberSign :: items ∧ items ≠ [] ∧ Scan.NameItems items) ∧
    (tokens = [⟨.function, (Text.ofString s).size⟩] ↔ ∃ name, utf8 s = name ++ [Byte.leftParenthesis] ∧
      Scan.Ident name ∧ name.equalIgnoringCase (utf8 "url") = false) := by
  have valid := isUtf8_utf8 s
  have size : (Text.ofString s).size = (utf8 s).length := (Text.length_toBytes _).symm
  rw [size]
  exact ⟨_, tokens_start (Text.ofString s), Scan.tokens_ident_iff valid, Scan.tokens_atKeyword_iff valid,
    Scan.tokens_hash_iff valid, Scan.tokens_function_iff valid⟩

end Buffer
end CssLex
