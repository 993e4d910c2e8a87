import CssLex.Proofs.Scan.Ends
import CssLex.Proofs.Scan.Settled
import CssLex.Proofs.Text.Characters

namespace CssLex.Scan

variable {bytes rest digits blank u : Bytes} {b : UInt8}

/-- At most one whitespace character, where CR LF is one. -/
inductive Blank : Bytes → Prop where
  | none : Blank []
  | one {b : UInt8} (white : Byte.isWhitespace b = true) : Blank [b]
  | pair : Blank [Byte.carriageReturn, Byte.lineFeed]

/-- What stands behind the backslash of an escape: one to six hex digits and perhaps a whitespace character, or one
character that is neither a newline nor a hex digit. -/
inductive Escaped : Bytes → Prop where
  | hex {digits blank : Bytes} (some : digits ≠ []) (few : digits.length ≤ 6)
      (all : ∀ d ∈ digits, Byte.isHexDigit d = true) (optional : Blank blank) : Escaped (digits ++ blank)
  | character (char : Char)
      (plain : ∀ b ∈ String.utf8EncodeChar char, Byte.isNewline b = false ∧ Byte.isHexDigit b = false) :
      Escaped (String.utf8EncodeChar char)

/-- A backslash in front of a newline begins no escape. -/
theorem Escaped.not_newline {body : Bytes} (escaped : Escaped body) : begins (!Byte.isNewline ·) body = true := by
  cases escaped with
  | character char plain =>
    obtain ⟨lead, continued, encoded, -⟩ := exists_utf8EncodeChar char
    rw [encoded] at plain ⊢
    simp [begins, (plain lead List.mem_cons_self).1]
  | @hex digits blank some few all optional =>
    cases digits with
    | nil => exact absurd rfl some
    | cons d digits => simp [begins, Byte.not_isNewline_of_isHexDigit (all d List.mem_cons_self)]

theorem charLength_encoded (char : Char) (rest : Bytes) :
    charLength (String.utf8EncodeChar char ++ rest) = (String.utf8EncodeChar char).length := by
  obtain ⟨lead, continued, encoded, -, -, width, -⟩ := exists_utf8EncodeChar char
  rw [encoded, List.cons_append, charLength, width, List.length_take, List.length_cons, List.length_cons,
    List.length_append]
  omega

theorem blank_take (bytes : Bytes) : Blank (bytes.take (blankLength bytes)) := by
  cases bytes with
  | nil => exact .none
  | cons b rest =>
    rw [blankLength]
    split
    · rename_i pair
      rw [Bool.and_eq_true, beq_iff_eq] at pair
      obtain ⟨rfl, feed⟩ := pair
      cases rest with
      | nil => cases feed
      | cons c rest =>
        obtain rfl : c = Byte.lineFeed := beq_iff_eq.mp feed
        exact .pair
    split
    · rename_i white
      exact .one white
    · exact .none

/-- Whitespace is taken whole in front of what is no whitespace. -/
private theorem blankLength_blank (optional : Blank blank) (stop : begins Byte.isWhitespace rest = false) :
    blankLength (blank ++ rest) = blank.length := by
  cases optional with
  | none =>
    cases rest with
    | nil => rfl
    | cons c rest =>
      have white : Byte.isWhitespace c = false := stop
      have feed : (c == Byte.carriageReturn) = false := by
        rw [beq_eq_false_iff_ne]
        rintro rfl
        exact absurd white (by decide)
      simp [blankLength, white, feed]
  | @one b white =>
    have feed : begins (· == Byte.lineFeed) rest = false := by
      have blank : ∀ c, (c == Byte.lineFeed) = true → Byte.isWhitespace c = true := by
        intro c same
        rw [beq_iff_eq.mp same]
        rfl
      exact Bool.eq_false_iff.mpr fun feed => Bool.eq_false_iff.mp stop (begins_imp blank feed)
    simp [blankLength, feed, white]
  | pair => simp [blankLength, begins]

private theorem runLength_cons_pos {p : UInt8 → Bool} (inside : p b = true) (rest : Bytes) :
    runLength p (b :: rest) = runLength p rest + 1 := by
  simp [runLength, inside]

private theorem runLength_of_not_begins {p : UInt8 → Bool} (stop : begins p bytes = false) : runLength p bytes = 0 := by
  cases bytes with
  | nil => rfl
  | cons c rest =>
    rw [begins] at stop
    simp [runLength, stop]

/-- Digits in front of a run are part of it. -/
private theorem runLength_take_digits (all : ∀ d ∈ digits, Byte.isHexDigit d = true) {limit : Nat}
    (few : digits.length ≤ limit) (u : Bytes) :
    runLength Byte.isHexDigit ((digits ++ u).take limit) =
      digits.length + runLength Byte.isHexDigit (u.take (limit - digits.length)) := by
  induction digits generalizing limit with
  | nil => simp
  | cons d digits ih =>
    obtain ⟨limit, rfl⟩ : ∃ n, limit = n + 1 := ⟨limit - 1, by rw [List.length_cons] at few; omega⟩
    rw [List.length_cons] at few
    rw [List.cons_append, List.take_succ_cons, runLength_cons_pos (all d List.mem_cons_self),
      ih (fun c member => all c (List.mem_cons_of_mem d member)) (by omega), List.length_cons, Nat.add_sub_add_right]
    omega

/-- Whitespace ends the digits of an escape. -/
theorem runLength_blank (optional : Blank blank) (some : blank ≠ []) (u : Bytes) (limit : Nat) :
    runLength Byte.isHexDigit ((blank ++ u).take limit) = 0 := by
  cases optional with
  | none => exact absurd rfl some
  | one white =>
    obtain ⟨-, hex, -⟩ := Byte.not_of_isWhitespace white
    cases limit <;> simp [runLength, hex]
  | pair => cases limit <;> rfl

/-- Hex digits go on as far as there are any, but not beyond six. -/
theorem escapeLength_digits (some : digits ≠ []) (few : digits.length ≤ 6)
    (all : ∀ d ∈ digits, Byte.isHexDigit d = true) (u : Bytes) {more : Nat}
    (run : runLength Byte.isHexDigit (u.take (6 - digits.length)) = more) :
    escapeLength (digits ++ u) = digits.length + more + blankLength (u.drop more) := by
  have long := List.length_pos_iff.mpr some
  rw [escapeLength, runLength_take_digits all few, run, if_neg (by omega), ← List.drop_drop, List.drop_left]

/-- Any other character is taken by itself. -/
theorem escapeLength_character {char : Char}
    (plain : ∀ b ∈ String.utf8EncodeChar char, Byte.isNewline b = false ∧ Byte.isHexDigit b = false) (rest : Bytes) :
    escapeLength (String.utf8EncodeChar char ++ rest) = (String.utf8EncodeChar char).length := by
  obtain ⟨lead, continued, encoded, -⟩ := exists_utf8EncodeChar char
  have none : runLength Byte.isHexDigit ((String.utf8EncodeChar char ++ rest).take 6) = 0 := by
    rw [encoded] at plain ⊢
    exact runLength_of_not_begins (plain lead List.mem_cons_self).2
  rw [escapeLength, none, charLength_encoded]
  rfl

private theorem of_mem_take_runLength {p : UInt8 → Bool} {limit : Nat} :
    ∀ c ∈ bytes.take (runLength p (bytes.take limit)), p c = true := by
  induction limit generalizing bytes with
  | zero => simp [runLength]
  | succ limit ih =>
    cases bytes with
    | nil => simp
    | cons b rest =>
      cases inside : p b with
      | false => simp [runLength, inside]
      | true =>
        rw [List.take_succ_cons, runLength_cons_pos inside, List.take_succ_cons, List.forall_mem_cons]
        exact ⟨inside, ih⟩

theorem ascii_of_isHexDigit : ∀ {c}, Byte.isHexDigit c = true → c < 0x80 := by
  decide +kernel

theorem Blank.ascii (optional : Blank blank) : ∀ c ∈ blank, c < 0x80 := by
  cases optional with
  | none => simp
  | one white =>
    rw [List.forall_mem_singleton]
    exact ascii_of_isWhitespace white
  | pair =>
    rw [List.forall_mem_cons, List.forall_mem_singleton]
    decide

/-- A character is taken whole where no hex digit begins. -/
private theorem escaped_take_character (valid : IsUtf8 bytes) (escape : begins (!Byte.isNewline ·) bytes = true)
    (none : runLength Byte.isHexDigit (bytes.take 6) = 0) :
    Escaped (bytes.take (escapeLength bytes)) ∧ IsUtf8 (bytes.drop (escapeLength bytes)) := by
  cases bytes with
  | nil => cases escape
  | cons c rest =>
    obtain ⟨char, more, same, left⟩ := valid.exists_char
    have length : escapeLength (c :: rest) = (String.utf8EncodeChar char).length := by
      rw [escapeLength, none, same, charLength_encoded]
      rfl
    rw [length, same, List.take_left, List.drop_left]
    refine ⟨.character char ?_, left⟩
    obtain ⟨continued, encoded, -, -, -, beyond⟩ := exists_continued same
    rw [encoded, List.forall_mem_cons]
    refine ⟨⟨?_, ?_⟩, fun b member => ?_⟩
    · simpa [begins] using escape
    · refine Bool.eq_false_iff.mpr fun hex => ?_
      rw [List.take_succ_cons, runLength_cons_pos hex] at none
      omega
    · have wide := not_ascii_of_isContinuation (beyond b member)
      exact ⟨Bool.eq_false_iff.mpr fun newline => wide (ascii_of_isNewline newline),
        Bool.eq_false_iff.mpr fun hex => wide (ascii_of_isHexDigit hex)⟩

/-- Hex digits are taken with at most one whitespace character. All of them are characters by themselves. -/
private theorem escaped_take_digits (valid : IsUtf8 bytes) (some : runLength Byte.isHexDigit (bytes.take 6) ≠ 0) :
    Escaped (bytes.take (escapeLength bytes)) ∧ IsUtf8 (bytes.drop (escapeLength bytes)) := by
  have few : runLength Byte.isHexDigit (bytes.take 6) ≤ (bytes.take 6).length := runLength_le _ _
  have all : ∀ d ∈ bytes.take (runLength Byte.isHexDigit (bytes.take 6)), Byte.isHexDigit d = true :=
    of_mem_take_runLength
  have optional := blank_take (bytes.drop (runLength Byte.isHexDigit (bytes.take 6)))
  have length : escapeLength bytes = runLength Byte.isHexDigit (bytes.take 6) +
      blankLength (bytes.drop (runLength Byte.isHexDigit (bytes.take 6))) := by
    rw [escapeLength]
    exact if_neg some
  generalize runLength Byte.isHexDigit (bytes.take 6) = digits at *
  rw [List.length_take] at few
  rw [length, List.take_add]
  constructor
  · refine .hex ?_ ?_ all optional
    · rw [← List.length_pos_iff, List.length_take]
      omega
    · rw [List.length_take]
      omega
  · rw [← List.take_append_drop digits bytes] at valid
    have behind := valid.of_append fun c member => ascii_of_isHexDigit (all c member)
    rw [← List.take_append_drop (blankLength (bytes.drop digits)) (bytes.drop digits)] at behind
    rw [← List.drop_drop]
    exact behind.of_append optional.ascii

/-- What the scanner takes behind a backslash is an escape, and whole characters are left. -/
theorem escaped_take (valid : IsUtf8 bytes) (escape : begins (!Byte.isNewline ·) bytes = true) :
    Escaped (bytes.take (escapeLength bytes)) ∧ IsUtf8 (bytes.drop (escapeLength bytes)) := by
  by_cases none : runLength Byte.isHexDigit (bytes.take 6) = 0
  · exact escaped_take_character valid escape none
  · exact escaped_take_digits valid none

section
variable {Items : Bytes → Prop} {body v : Bytes}
  (tail : ∀ b rest, Byte.isHexDigit b = true ∨ Byte.isWhitespace b = true → Items (b :: rest) → Items rest)
include tail

/-- Hex digits go on into the items behind them, and what is left of these are items. -/
private theorem exists_hexRun (items : Items rest) (stop : begins Byte.isHexDigit v = false) (limit : Nat) :
    ∃ more ≤ rest.length, runLength Byte.isHexDigit ((rest ++ v).take limit) = more ∧ Items (rest.drop more) := by
  induction limit generalizing rest with
  | zero => exact ⟨0, Nat.zero_le _, by simp [runLength], items⟩
  | succ limit ih =>
    cases rest with
    | nil =>
      refine ⟨0, Nat.le_refl 0, runLength_of_not_begins ?_, items⟩
      cases v with
      | nil => rfl
      | cons c v => exact stop
    | cons b rest =>
      cases hex : Byte.isHexDigit b with
      | true =>
        obtain ⟨more, fits, run, left⟩ := ih (tail b rest (.inl hex) items)
        refine ⟨more + 1, Nat.succ_le_succ fits, ?_, left⟩
        rw [List.cons_append, List.take_succ_cons, runLength_cons_pos hex, run]
      | false => exact ⟨0, Nat.zero_le _, runLength_of_not_begins hex, items⟩

/-- CR takes LF along if the items behind it begin with one. -/
private theorem exists_feed (items : Items rest) (stop : begins Byte.isWhitespace v = false)
    (white : Byte.isWhitespace b = true) :
    ∃ more ≤ rest.length, blankLength (b :: (rest ++ v)) = more + 1 ∧ Items (rest.drop more) := by
  rw [blankLength, if_pos white]
  split
  · rename_i pair
    rw [Bool.and_eq_true] at pair
    have feed : ∀ c, (c == Byte.lineFeed) = true → Byte.isWhitespace c = true := by
      intro c same
      rw [beq_iff_eq.mp same]
      rfl
    cases rest with
    | nil => exact absurd (begins_imp feed pair.2) (Bool.eq_false_iff.mp stop)
    | cons c rest => exact ⟨1, Nat.succ_le_succ (Nat.zero_le _), rfl, tail c rest (.inr (feed c pair.2)) items⟩
  · exact ⟨0, Nat.zero_le _, rfl, items⟩

/-- The whitespace at the end of an escape goes on into the items behind it. -/
private theorem exists_blank (optional : Blank blank) (items : Items rest) (stop : begins Byte.isWhitespace v = false) :
    ∃ more ≤ rest.length, blankLength (blank ++ (rest ++ v)) = blank.length + more ∧ Items (rest.drop more) := by
  cases optional with
  | none =>
    cases rest with
    | nil => exact ⟨0, Nat.le_refl 0, blankLength_blank .none stop, items⟩
    | cons b rest =>
      cases white : Byte.isWhitespace b with
      | true =>
        obtain ⟨more, fits, length, left⟩ := exists_feed tail (tail b rest (.inr white) items) stop white
        refine ⟨more + 1, Nat.succ_le_succ fits, ?_, left⟩
        rw [List.nil_append, List.cons_append, length, List.length_nil, Nat.zero_add]
      | false => exact ⟨0, Nat.zero_le _, blankLength_blank .none white, items⟩
  | one white =>
    obtain ⟨more, fits, length, left⟩ := exists_feed tail items stop white
    refine ⟨more, fits, ?_, left⟩
    rw [List.singleton_append, length, List.length_singleton, Nat.add_comm]
  | pair => exact ⟨0, Nat.zero_le _, by simp [blankLength, begins], items⟩

/-- An escape is taken whole, perhaps with some of the items behind it, and what is left of these are items. -/
theorem escapeLength_escaped (escaped : Escaped body) (items : Items rest)
    (noDigit : begins Byte.isHexDigit v = false) (noBlank : begins Byte.isWhitespace v = false) :
    ∃ more ≤ rest.length, escapeLength (body ++ (rest ++ v)) = body.length + more ∧ Items (rest.drop more) := by
  cases escaped with
  | character char plain => exact ⟨0, Nat.zero_le _, escapeLength_character plain _, items⟩
  | @hex digits blank some few all optional =>
    by_cases none : blank = []
    · subst none
      obtain ⟨more, fits, run, left⟩ := exists_hexRun tail items noDigit (6 - digits.length)
      obtain ⟨blank, fits', length, left'⟩ := exists_blank tail .none left noBlank
      rw [List.length_drop] at fits'
      rw [List.nil_append, List.length_nil, Nat.zero_add] at length
      refine ⟨more + blank, by omega, ?_, ?_⟩
      · rw [List.append_nil, escapeLength_digits some few all _ run, List.drop_append_of_le_length fits, length,
          Nat.add_assoc]
      · rwa [← List.drop_drop]
    · obtain ⟨more, fits, length, left⟩ := exists_blank tail optional items noBlank
      refine ⟨more, fits, ?_, left⟩
      rw [List.append_assoc, escapeLength_digits some few all _ (runLength_blank optional none _ _), List.drop_zero,
        length, List.length_append]
      omega

end

end CssLex.Scan
