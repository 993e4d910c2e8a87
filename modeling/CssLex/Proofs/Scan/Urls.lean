import CssLex.Proofs.Buffer.Boundaries
import CssLex.Proofs.Number.Inert
import CssLex.Proofs.Scan.Readings
import Mathlib.Data.List.TakeWhile

namespace CssLex

namespace Scan

variable {bytes body rest blank u v : Bytes} {b c : UInt8} {char : Char} {pieces : List Bytes}

/-- Bytes that stand for themselves in an unquoted url. -/
def isUrlByte (b : UInt8) : Bool :=
  !(Byte.isWhitespace b || Byte.isQuote b || b == Byte.leftParenthesis || b == Byte.rightParenthesis ||
    b == Byte.reverseSolidus || Byte.isNonPrintable b)

/-- Escapes and characters that stand for themselves, in any number, and perhaps whitespace at the end. -/
inductive UrlItems : Bytes → Prop where
  | blank {blank : Bytes} (white : ∀ b ∈ blank, Byte.isWhitespace b = true) : UrlItems blank
  | character {char : Char} {rest : Bytes} (plain : ∀ b ∈ String.utf8EncodeChar char, isUrlByte b = true)
      (items : UrlItems rest) : UrlItems (String.utf8EncodeChar char ++ rest)
  | escape {body rest : Bytes} (escaped : Escaped body) (items : UrlItems rest) :
      UrlItems (Byte.reverseSolidus :: (body ++ rest))

/-- The text of an unquoted url may have whitespace at both ends. -/
inductive UrlText : Bytes → Prop where
  | intro {blank rest : Bytes} (white : ∀ b ∈ blank, Byte.isWhitespace b = true) (items : UrlItems rest) :
      UrlText (blank ++ rest)

/-- What ends a url. -/
def endsUrl (b : UInt8) : Bool := b == Byte.rightParenthesis

/-- What a backslash outside of strings takes along: nothing if it begins no escape. -/
def escapedLength (bytes : Bytes) : Nat := if begins (!Byte.isNewline ·) bytes then escapeLength bytes else 0

private theorem takes_escaped : Takes Escaped escapedLength where
  fits := by
    intro rest
    rw [escapedLength]
    split
    · exact escapeLength_le rest
    · exact Nat.zero_le _
  behind := by
    intro rest valid
    rw [escapedLength]
    split
    · rename_i escape
      exact .inr (escaped_take valid escape).1
    · exact .inl rfl
  valid := by
    intro rest valid
    rw [escapedLength]
    split
    · rename_i escape
      exact (escaped_take valid escape).2
    · exact valid
  whole := by
    intro body rest escaped
    rw [escapedLength, if_pos (begins_append _ escaped.not_newline _)]
    exact escaped.length_le rest

private theorem ascii_of_endsUrl (b : UInt8) (ends : endsUrl b = true) : b < 0x80 := by
  rw [beq_iff_eq.mp ends]
  decide

private theorem badUrlLength_plain (plain : ∀ d ∈ u, endsUrl d = false ∧ d ≠ Byte.reverseSolidus) (rest : Bytes) :
    badUrlLength (u ++ rest) = u.length + badUrlLength rest := by
  induction u with
  | nil => rw [List.nil_append, List.length_nil, Nat.zero_add]
  | cons d u ih =>
    obtain ⟨⟨isOpen, other⟩, plain⟩ := List.forall_mem_cons.mp plain
    rw [endsUrl] at isOpen
    rw [List.cons_append, badUrlLength, ih plain, List.length_cons]
    simp [isOpen, beginsEscape, other]
    omega

private theorem badUrlLength_backslash (whole : escapedLength (body ++ rest) = body.length) :
    badUrlLength (Byte.reverseSolidus :: (body ++ rest)) = body.length + 1 + badUrlLength rest := by
  have isOpen : (Byte.reverseSolidus == Byte.rightParenthesis) = false := by decide
  rw [badUrlLength, isOpen, if_neg Bool.false_ne_true]
  by_cases escape : begins (!Byte.isNewline ·) (body ++ rest) = true
  · rw [escapedLength, if_pos escape] at whole
    rw [if_pos (by simpa [beginsEscape] using escape), whole, List.drop_left]
    omega
  · rw [escapedLength, if_neg escape] at whole
    obtain rfl : body = [] := List.length_eq_zero_iff.mp whole.symm
    rw [if_neg (by simpa [beginsEscape] using escape), List.nil_append, List.length_nil]
    omega

/-- A bad url reaches just past the first closing parenthesis that is read by itself. -/
theorem badUrlLength_readTo (read : ReadTo Escaped endsUrl pieces rest) (valid : IsUtf8 (pieces.flatten ++ rest)) :
    badUrlLength (pieces.flatten ++ rest) = pieces.flatten.length + (rest.take 1).length := by
  induction pieces with
  | nil =>
    rw [List.flatten_nil, List.nil_append, List.length_nil, Nat.zero_add]
    cases rest with
    | nil => simp [badUrlLength]
    | cons b rest =>
      have closed : (b == Byte.rightParenthesis) = true := by simpa [begins, endsUrl] using read.atStop
      rw [badUrlLength, if_pos closed]
      rfl
  | cons piece pieces ih =>
    obtain ⟨scanned, later, left⟩ := read.tail takes_escaped ascii_of_endsUrl valid
    rw [List.flatten_cons, List.append_assoc, List.length_append, Nat.add_assoc, ← ih later left]
    cases scanned with
    | backslash behind whole => rw [List.cons_append, badUrlLength_backslash whole, List.length_cons]
    | character plain => rw [badUrlLength_plain plain]

private theorem drop_whitespaceLength (bytes : Bytes) :
    bytes.drop (whitespaceLength bytes) = bytes.dropWhile Byte.isWhitespace := by
  induction bytes with
  | nil => rfl
  | cons b rest ih =>
    cases white : Byte.isWhitespace b with
    | true => rw [whitespaceLength_cons white, List.drop_succ_cons, ih, List.dropWhile_cons_of_pos white]
    | false => simp [whitespaceLength, runLength, white]

private theorem plain_of_isWhitespace :
    ∀ d, Byte.isWhitespace d = true → endsUrl d = false ∧ d ≠ Byte.reverseSolidus := by
  decide +kernel

private theorem badUrlLength_blank (bytes : Bytes) :
    badUrlLength bytes = whitespaceLength bytes + badUrlLength (bytes.dropWhile Byte.isWhitespace) := by
  conv_lhs => rw [← List.takeWhile_append_dropWhile (p := Byte.isWhitespace) (l := bytes)]
  rw [badUrlLength_plain, whitespaceLength, runLength]
  intro d member
  exact plain_of_isWhitespace d (List.mem_takeWhile_imp member)

private theorem urlEnd_length (bytes : Bytes) : (urlEnd bytes).length = badUrlLength bytes := by
  cases bytes with
  | nil => simp [urlEnd, badUrlLength]
  | cons b rest =>
    rw [urlEnd]
    split
    · rename_i closed
      rw [badUrlLength, if_pos closed]
    · rfl

/-- A url ends where it would as a bad one, so it does not matter where the scanner gives it up. -/
theorem urlRest_length (bytes : Bytes) : (urlRest bytes).length = badUrlLength bytes := by
  fun_induction urlRest bytes with
  | case1 => simp [badUrlLength]
  | case2 b rest closed => rw [badUrlLength, if_pos closed]
  | case3 b rest _ white =>
    rw [Token.extend_length, urlEnd_length, badUrlLength_blank (b :: rest), whitespaceLength_cons white,
      List.dropWhile_cons_of_pos white, drop_whitespaceLength, Nat.add_comm]
  | case4 b rest notClosed _ escape ih =>
    rw [Token.extend_length, ih, badUrlLength, if_neg notClosed, if_pos escape]
  | case5 b rest => rfl
  | case6 b rest notClosed _ notEscape _ ih =>
    rw [Token.extend_length, ih, badUrlLength, if_neg notClosed, if_neg notEscape]

/-! ## What is in the grammar is a url -/

private theorem urlEnd_kind_iff : (urlEnd bytes).kind = .url ↔ bytes = [] ∨ begins endsUrl bytes = true := by
  cases bytes with
  | nil => simp [urlEnd]
  | cons b rest =>
    rw [urlEnd]
    split <;> simp_all [begins, endsUrl]

private theorem urlRest_stop (atStop : bytes = [] ∨ begins endsUrl bytes = true) : (urlRest bytes).kind = .url := by
  cases bytes with
  | nil => simp [urlRest]
  | cons b rest =>
    have closed : (b == Byte.rightParenthesis) = true := by simpa [begins, endsUrl] using atStop
    rw [urlRest, if_pos closed]

private theorem of_isUrlByte : ∀ b, isUrlByte b = true → Byte.isWhitespace b = false ∧ isUrlFault b = false ∧
    (b == Byte.rightParenthesis) = false ∧ (b == Byte.reverseSolidus) = false := by
  decide +kernel

private theorem urlRest_plain (plain : ∀ d ∈ u, isUrlByte d = true) (rest : Bytes) :
    urlRest (u ++ rest) = (urlRest rest).extend u.length := by
  induction u with
  | nil => rfl
  | cons d u ih =>
    obtain ⟨first, plain⟩ := List.forall_mem_cons.mp plain
    obtain ⟨white, fault, isOpen, backslash⟩ := of_isUrlByte d first
    rw [List.cons_append, urlRest, ih plain]
    simp [isOpen, white, beginsEscape, backslash, fault]

private theorem urlRest_blank (white : Byte.isWhitespace b = true) (rest : Bytes) :
    (urlRest (b :: rest)).kind = (urlEnd (rest.dropWhile Byte.isWhitespace)).kind := by
  have isOpen : (b == Byte.rightParenthesis) = false := (plain_of_isWhitespace b white).1
  rw [urlRest, isOpen, if_neg Bool.false_ne_true, if_pos white, Token.extend_kind, drop_whitespaceLength]

private theorem urlRest_escape (escape : begins (!Byte.isNewline ·) rest = true) :
    urlRest (Byte.reverseSolidus :: rest) =
      (urlRest (rest.drop (escapeLength rest))).extend (escapeLength rest + 1) := by
  have isOpen : (Byte.reverseSolidus == Byte.rightParenthesis) = false := by decide
  have black : Byte.isWhitespace Byte.reverseSolidus = false := by decide
  rw [urlRest, isOpen, if_neg Bool.false_ne_true, black, if_neg Bool.false_ne_true, if_pos]
  simpa [beginsEscape] using escape

/-- What an escape may take of the items behind it leaves items. -/
private theorem UrlItems.tail (part : Byte.isHexDigit b = true ∨ Byte.isWhitespace b = true)
    (items : UrlItems (b :: rest)) : UrlItems rest := by
  have ascii : b < 0x80 := part.elim ascii_of_isHexDigit ascii_of_isWhitespace
  generalize same : b :: rest = bytes at items
  cases items with
  | blank white =>
    subst same
    exact .blank (List.forall_mem_cons.mp white).2
  | @character char more plain items =>
    obtain ⟨-, rfl⟩ := eq_of_ascii same ascii
    exact items
  | escape escaped items =>
    obtain ⟨rfl, -⟩ := List.cons.inj same
    exact absurd part (by decide)

/-- A closing parenthesis or the end of input goes on with nothing. -/
private theorem not_begins_of_atStop {p : UInt8 → Bool} (other : p Byte.rightParenthesis = false)
    (atStop : v = [] ∨ begins endsUrl v = true) : begins p v = false := by
  cases v with
  | nil => rfl
  | cons b v =>
    have closed : b = Byte.rightParenthesis := by simpa [begins, endsUrl] using atStop
    rw [closed]
    exact other

private theorem dropWhile_of_not_begins {p : UInt8 → Bool} (stop : begins p v = false) : v.dropWhile p = v := by
  cases v with
  | nil => rfl
  | cons b v => exact List.dropWhile_cons_of_neg (Bool.eq_false_iff.mp stop)

/-- Items are taken whole in front of a closing parenthesis or the end of input. -/
private theorem urlRest_items (items : UrlItems bytes) (atStop : v = [] ∨ begins endsUrl v = true) :
    (urlRest (bytes ++ v)).kind = .url := by
  have noBlank := not_begins_of_atStop (p := Byte.isWhitespace) (by decide) atStop
  induction length : bytes.length using Nat.strong_induction_on generalizing bytes with
  | _ n ih =>
    subst length
    cases items with
    | blank white =>
      cases bytes with
      | nil => exact urlRest_stop atStop
      | cons b blank =>
        obtain ⟨first, white⟩ := List.forall_mem_cons.mp white
        rwa [List.cons_append, urlRest_blank first, urlEnd_kind_iff, List.dropWhile_append_of_pos white,
          dropWhile_of_not_begins noBlank]
    | @character char rest plain items =>
      have long := Char.utf8Size_pos char
      rw [← String.length_utf8EncodeChar] at long
      rw [List.append_assoc, urlRest_plain plain, Token.extend_kind]
      apply ih _ _ items rfl
      rw [List.length_append]
      omega
    | @escape body rest escaped items =>
      have noDigit := not_begins_of_atStop (p := Byte.isHexDigit) (by decide) atStop
      obtain ⟨more, fits, long, left⟩ := escapeLength_escaped (fun _ _ => UrlItems.tail) escaped items noDigit noBlank
      rw [List.cons_append, List.append_assoc, urlRest_escape (begins_append _ escaped.not_newline _),
        Token.extend_kind, long, ← List.drop_drop, List.drop_left, List.drop_append_of_le_length fits]
      apply ih _ _ left rfl
      rw [List.length_drop, List.length_cons, List.length_append]
      omega

/-- Items that begin with whitespace are nothing else. -/
private theorem UrlItems.dropWhile (items : UrlItems bytes) (atStop : v = [] ∨ begins endsUrl v = true) :
    ∃ rest, (bytes ++ v).dropWhile Byte.isWhitespace = rest ++ v ∧ UrlItems rest := by
  have noBlank := not_begins_of_atStop (p := Byte.isWhitespace) (by decide) atStop
  cases items with
  | blank white =>
    refine ⟨[], ?_, .blank (by simp)⟩
    rw [List.dropWhile_append_of_pos white, dropWhile_of_not_begins noBlank, List.nil_append]
  | @character char rest plain items =>
    refine ⟨_, ?_, .character plain items⟩
    obtain ⟨lead, continued, encoded, -⟩ := exists_utf8EncodeChar char
    rw [encoded] at plain ⊢
    have white := (of_isUrlByte lead (plain lead List.mem_cons_self)).1
    exact dropWhile_of_not_begins white
  | escape escaped items => exact ⟨_, dropWhile_of_not_begins rfl, .escape escaped items⟩

/-! ## What is a url is in the grammar -/

/-- Bytes that a url can be given up for. -/
private theorem urlRest_fault (isOpen : endsUrl b = false) (white : Byte.isWhitespace b = false)
    (escape : beginsEscape (b :: rest) = false) (fault : isUrlByte b = false) :
    (urlRest (b :: rest)).kind = .badUrl := by
  have notPlain : ∀ b, isUrlByte b = false → endsUrl b = false → Byte.isWhitespace b = false →
      (isUrlFault b || b == Byte.reverseSolidus) = true := by decide +kernel
  have isFault := notPlain b fault isOpen white
  rw [endsUrl] at isOpen
  rw [urlRest, isOpen, if_neg Bool.false_ne_true, white, if_neg Bool.false_ne_true, escape, if_neg Bool.false_ne_true,
    if_pos isFault]

/-- Every byte of a character is allowed in a url, or the character is a byte that is not. -/
private theorem isUrlByte_or (char : Char) : (∀ d ∈ String.utf8EncodeChar char, isUrlByte d = true) ∨
    ∃ b, String.utf8EncodeChar char = [b] ∧ isUrlByte b = false := by
  have wide : ∀ d, ¬d < 0x80 → isUrlByte d = true := by decide +kernel
  obtain ⟨lead, continued, encoded, -, single, -, later⟩ := exists_utf8EncodeChar char
  rw [encoded]
  cases first : isUrlByte lead with
  | true =>
    refine .inl (List.forall_mem_cons.mpr ⟨first, ?_⟩)
    intro d member
    exact wide d (not_ascii_of_isContinuation (later d member))
  | false =>
    refine .inr ⟨lead, ?_, first⟩
    rw [single.mp (by_contra fun beyond => by simp [wide lead beyond] at first)]

/-- A piece is a whitespace byte, or whitespace ends in front of it. -/
private theorem ScannedPiece.white_or {piece : Bytes}
    (scanned : ScannedPiece Escaped escapedLength endsUrl rest piece) :
    (∃ b, piece = [b] ∧ Byte.isWhitespace b = true) ∨
      (piece ++ rest).dropWhile Byte.isWhitespace = piece ++ rest ∧ ¬(urlEnd (piece ++ rest)).kind = .url := by
  cases scanned with
  | backslash =>
    have isOpen : endsUrl Byte.reverseSolidus = false := by decide
    exact .inr ⟨dropWhile_of_not_begins rfl, by simp [urlEnd_kind_iff, begins, isOpen]⟩
  | @character char plain =>
    obtain ⟨lead, continued, encoded, -, single, -⟩ := exists_utf8EncodeChar char
    rw [encoded] at plain ⊢
    cases white : Byte.isWhitespace lead with
    | true => exact .inl ⟨lead, by rw [single.mp (ascii_of_isWhitespace white)], white⟩
    | false =>
      refine .inr ⟨dropWhile_of_not_begins white, ?_⟩
      simp [urlEnd_kind_iff, begins, plain lead List.mem_cons_self]

/-- Where an escape begins, something belongs to the backslash. -/
private theorem escaped_of_begins (behind : body = [] ∨ Escaped body)
    (whole : escapeLength (body ++ rest) = body.length)
    (escape : begins (!Byte.isNewline ·) (body ++ rest) = true) : Escaped body := by
  rcases behind with rfl | escaped
  · have some : [] ++ rest ≠ [] := by
      intro none
      rw [none] at escape
      cases escape
    have := escapeLength_pos some
    rw [whole] at this
    exact absurd this (Nat.lt_irrefl 0)
  · exact escaped

private theorem UrlItems.text (items : UrlItems bytes) : UrlText bytes := by
  rw [← List.nil_append bytes]
  exact .intro (fun _ member => absurd member List.not_mem_nil) items

private theorem UrlText.cons (white : Byte.isWhitespace b = true) (text : UrlText bytes) : UrlText (b :: bytes) := by
  cases text with
  | intro all items =>
    rw [← List.cons_append]
    exact .intro (List.forall_mem_cons.mpr ⟨white, all⟩) items

section
variable (read : ReadTo Escaped endsUrl pieces rest) (valid : IsUtf8 (pieces.flatten ++ rest))
include read valid

private theorem white_of_urlEnd (good : (urlEnd ((pieces.flatten ++ rest).dropWhile Byte.isWhitespace)).kind = .url) :
    ∀ b ∈ pieces.flatten, Byte.isWhitespace b = true := by
  induction pieces with
  | nil => simp
  | cons piece pieces ih =>
    obtain ⟨scanned, later, left⟩ := read.tail takes_escaped ascii_of_endsUrl valid
    rw [List.flatten_cons, List.append_assoc] at good
    rcases scanned.white_or with ⟨b, rfl, white⟩ | ⟨stop, bad⟩
    · rw [List.singleton_append, List.dropWhile_cons_of_pos white] at good
      exact List.forall_mem_cons.mpr ⟨white, ih later left good⟩
    · rw [stop] at good
      exact absurd good bad

/-- The text of a good url is items. -/
private theorem items_of_urlRest (good : (urlRest (pieces.flatten ++ rest)).kind = .url) : UrlItems pieces.flatten := by
  induction pieces with
  | nil => exact .blank (by simp)
  | cons piece pieces ih =>
    obtain ⟨scanned, later, left⟩ := read.tail takes_escaped ascii_of_endsUrl valid
    rw [List.flatten_cons, List.append_assoc] at good
    rw [List.flatten_cons]
    cases scanned with
    | @backslash body behind whole =>
      rw [List.cons_append] at good
      by_cases escape : begins (!Byte.isNewline ·) (body ++ (pieces.flatten ++ rest)) = true
      · rw [escapedLength, if_pos escape] at whole
        rw [urlRest_escape escape, Token.extend_kind, whole, List.drop_left] at good
        exact .escape (escaped_of_begins behind whole escape) (ih later left good)
      · have noEscape : beginsEscape (Byte.reverseSolidus :: (body ++ (pieces.flatten ++ rest))) = false := by
          simpa [beginsEscape] using escape
        rw [urlRest_fault (by decide) (by decide) noEscape (by decide)] at good
        cases good
    | @character char plain =>
      rcases isUrlByte_or char with all | ⟨b, single, fault⟩
      · rw [urlRest_plain all] at good
        exact .character all (ih later left good)
      · rw [single, List.forall_mem_singleton] at plain
        rw [single, List.singleton_append] at good ⊢
        cases white : Byte.isWhitespace b with
        | true =>
          rw [urlRest_blank white] at good
          exact .blank (List.forall_mem_cons.mpr ⟨white, white_of_urlEnd later left good⟩)
        | false =>
          rw [urlRest_fault plain.1 white (by simp [beginsEscape, plain.2]) fault] at good
          cases good

/-- The text of a good url is in the grammar, also with the whitespace in front of it. -/
theorem text_of_urlRest (good : (urlRest ((pieces.flatten ++ rest).dropWhile Byte.isWhitespace)).kind = .url) :
    UrlText pieces.flatten := by
  induction pieces with
  | nil => exact (UrlItems.blank (by simp)).text
  | cons piece pieces ih =>
    obtain ⟨scanned, later, left⟩ := read.tail takes_escaped ascii_of_endsUrl valid
    rw [List.flatten_cons, List.append_assoc] at good
    rcases scanned.white_or with ⟨b, rfl, white⟩ | ⟨stop, -⟩
    · rw [List.singleton_append, List.dropWhile_cons_of_pos white] at good
      exact (ih later left good).cons white
    · rw [stop, ← List.append_assoc, ← List.flatten_cons] at good
      exact (items_of_urlRest read valid good).text

/-- A url is a good one if and only if its text is in the grammar. -/
theorem urlRest_kind_iff :
    (urlRest ((pieces.flatten ++ rest).dropWhile Byte.isWhitespace)).kind = .url ↔ UrlText pieces.flatten := by
  constructor
  · exact text_of_urlRest read valid
  · intro text
    generalize pieces.flatten = bytes at text
    obtain ⟨white, items⟩ := text
    obtain ⟨left, same, items⟩ := items.dropWhile read.atStop
    rw [List.append_assoc, List.dropWhile_append_of_pos white, same]
    exact urlRest_items items read.atStop

end

/-- In any case the letters of `url(` begin a name and go on with it. -/
private theorem exists_urlName {name : Bytes} (call : name.equalIgnoringCase (utf8 "url(") = true) :
    ∃ first others, name = first :: others ++ [Byte.leftParenthesis] ∧ others.length = 2 ∧
      Byte.isNameStart first = true ∧ (∀ c ∈ first :: others, Byte.isName c = true) ∧
      Bytes.equalIgnoringCase (first :: others) urlName = true := by
  have letter : ∀ c, Byte.lower c = 0x75 ∨ Byte.lower c = 0x72 ∨ Byte.lower c = 0x6C → Byte.isNameStart c = true := by
    decide +kernel
  have parenthesis : ∀ c, Byte.lower c = 0x28 → c = Byte.leftParenthesis := by decide +kernel
  have lowered : name.map Byte.lower = [0x75, 0x72, 0x6C, 0x28] := beq_iff_eq.mp call
  obtain ⟨u, name, rfl, isU, lowered⟩ := List.map_eq_cons_iff.mp lowered
  obtain ⟨r, name, rfl, isR, lowered⟩ := List.map_eq_cons_iff.mp lowered
  obtain ⟨l, name, rfl, isL, lowered⟩ := List.map_eq_cons_iff.mp lowered
  obtain ⟨p, name, rfl, isP, lowered⟩ := List.map_eq_cons_iff.mp lowered
  obtain rfl := List.map_eq_nil_iff.mp lowered
  obtain rfl := parenthesis p isP
  have start := letter u (.inl isU)
  refine ⟨u, [r, l], rfl, rfl, start, ?_, ?_⟩
  · simp [Byte.isName_of_isNameStart start, Byte.isName_of_isNameStart (letter r (.inr (.inl isR))),
      Byte.isName_of_isNameStart (letter l (.inr (.inr isL)))]
  · rw [← equalIgnoringCase_parenthesis]
    exact call

/-- What begins with `url(` in any case is a function if a quote follows, and else a url. -/
theorem next_urlCall {name : Bytes} (call : name.equalIgnoringCase (utf8 "url(") = true) (rest : Bytes) :
    next (name ++ rest) =
      if begins Byte.isQuote (rest.dropWhile Byte.isWhitespace) then ⟨.function, 4⟩
      else (urlRest (rest.dropWhile Byte.isWhitespace)).extend (whitespaceLength rest + 4) := by
  obtain ⟨first, others, rfl, length, start, names, named⟩ := exists_urlName call
  have long : nameLength (first :: others ++ Byte.leftParenthesis :: rest) = (first :: others).length :=
    nameLength_of_all names rfl
  rw [List.append_assoc, List.singleton_append, List.cons_append, next_nameStart _ start, ← List.cons_append, identLike,
    long, List.take_left, List.drop_left, nameWith, named, drop_whitespaceLength, List.length_cons, length]
  simp only [bne_self_eq_false, Bool.false_eq_true, if_false, Bool.not_true, Bool.false_or]
  split
  · rfl
  · rw [Token.extend_extend]

end Scan

namespace Buffer

/-- Wherever `url(` begins a token, in any case, that is a function if the next byte but for whitespace is a quote. If
not, it is a url or a bad url, which reaches just past the first closing parenthesis that is read by itself, and a good
one if and only if the text up to there is in the grammar of urls. -/
theorem scan_urls (s : String) : ∃ tokens, (ofText (Text.ofString s)).tokens 0 = .ok tokens ∧
    ∀ k name rest, name.equalIgnoringCase (utf8 "url(") = true → Token.ahead tokens (utf8 s) k = name ++ rest →
      (Scan.begins Byte.isQuote (rest.dropWhile Byte.isWhitespace) = true → tokens[k]? = some ⟨.function, 4⟩) ∧
      (Scan.begins Byte.isQuote (rest.dropWhile Byte.isWhitespace) = false →
        ∃ pieces behind token, rest = pieces.flatten ++ behind ∧
          Scan.ReadTo Scan.Escaped Scan.endsUrl pieces behind ∧ tokens[k]? = some token ∧
          token.length = 4 + pieces.flatten.length + (behind.take 1).length ∧
          (token.kind = .url ∨ token.kind = .badUrl) ∧ (token.kind = .url ↔ Scan.UrlText pieces.flatten)) := by
  refine ⟨Scan.tokens (utf8 s), tokens_start _, ?_⟩
  intro k name rest call left
  obtain ⟨first, others, same, -⟩ := Scan.exists_urlName call
  have here : (Scan.tokens (utf8 s))[k]? = some (Scan.next (name ++ rest)) := by
    rw [same] at left ⊢
    exact Scan.getElem?_of_ahead left
  rw [here, Scan.next_urlCall call]
  constructor
  · intro quote
    rw [if_pos quote]
  · intro other
    rw [same, List.append_assoc] at left
    have valid := (Token.isUtf8_ahead (isUtf8_utf8 s) left (by decide)).tail (by decide)
    obtain ⟨pieces, behind, rfl, read⟩ := Scan.exists_readTo Scan.takes_escaped Scan.endsUrl valid
    have length := Scan.badUrlLength_readTo read valid
    rw [Scan.badUrlLength_blank] at length
    rw [other, if_neg Bool.false_ne_true]
    refine ⟨pieces, behind, _, rfl, read, rfl, ?_, ?_, ?_⟩
    · rw [Token.extend_length, Scan.urlRest_length]
      omega
    · exact Scan.urlRest_kind _
    · exact Scan.urlRest_kind_iff read valid

/-- Behind `URL(` the escaped parenthesis does not end the url, and whitespace at the ends leaves it a good one. -/
theorem scan_urls_escape :
    ∃ tokens, (ofText (Text.ofString "url('')URL( \\)é )")).tokens 0 = .ok tokens ∧
      Token.ahead tokens (utf8 "url('')URL( \\)é )") 0 = utf8 "url(" ++ utf8 "'')URL( \\)é )" ∧
      tokens[0]? = some ⟨.function, 4⟩ ∧
      (utf8 "URL(").equalIgnoringCase (utf8 "url(") = true ∧
      Token.ahead tokens (utf8 "url('')URL( \\)é )") 3 = utf8 "URL(" ++ utf8 " \\)é )" ∧
      ∃ pieces behind, utf8 " \\)é )" = pieces.flatten ++ behind ∧ Scan.ReadTo Scan.Escaped Scan.endsUrl pieces behind ∧
        tokens[3]? = some ⟨.url, 11⟩ ∧ Scan.UrlText pieces.flatten := by
  obtain ⟨tokens, scan, urls⟩ := scan_urls "url('')URL( \\)é )"
  have all : (ofText (Text.ofString "url('')URL( \\)é )")).tokens 0 =
      .ok [⟨.function, 4⟩, ⟨.string, 2⟩, ⟨.rightParenthesis, 1⟩, ⟨.url, 11⟩] := by decide +kernel
  obtain rfl := Except.ok.inj (scan.symm.trans all)
  have quoted : Token.ahead [⟨.function, 4⟩, ⟨.string, 2⟩, ⟨.rightParenthesis, 1⟩, ⟨.url, 11⟩]
      (utf8 "url('')URL( \\)é )") 0 = utf8 "url(" ++ utf8 "'')URL( \\)é )" := by decide +kernel
  have unquoted : Token.ahead [⟨.function, 4⟩, ⟨.string, 2⟩, ⟨.rightParenthesis, 1⟩, ⟨.url, 11⟩]
      (utf8 "url('')URL( \\)é )") 3 = utf8 "URL(" ++ utf8 " \\)é )" := by decide +kernel
  have call := (urls 0 _ _ (by decide +kernel) quoted).1 (by decide +kernel)
  have upper : (utf8 "URL(").equalIgnoringCase (utf8 "url(") = true := by decide +kernel
  obtain ⟨pieces, behind, token, same, read, here, -, -, good⟩ := (urls 3 _ _ upper unquoted).2 (by decide +kernel)
  obtain rfl := Option.some.inj here
  exact ⟨_, scan, quoted, call, upper, unquoted, pieces, behind, same, read, here, good.mp rfl⟩

end Buffer
end CssLex
