import CssLex.Proofs.Buffer.Boundaries
import CssLex.Proofs.Scan.Readings

namespace CssLex

namespace Scan

variable {bytes body rest : Bytes} {quote b c : UInt8} {pieces : List Bytes}

/-- What may belong to a backslash in a string: a newline, where CR LF is one, or what stands behind the backslash of an
escape. -/
inductive Continued : Bytes → Prop where
  | newline {b : UInt8} (newline : Byte.isNewline b = true) : Continued [b]
  | pair : Continued [Byte.carriageReturn, Byte.lineFeed]
  | escape {body : Bytes} (escaped : Escaped body) : Continued body

/-- The bytes that end a string. -/
def endsString (quote b : UInt8) : Bool := b == quote || Byte.isNewline b

/-- What ends a string in front of `rest`, as the token of what the string takes of it. -/
inductive StringEnd (quote : UInt8) : Bytes → Token → Prop where
  | closed (rest : Bytes) : StringEnd quote (quote :: rest) ⟨.string, 1⟩
  | cut {b : UInt8} (newline : Byte.isNewline b = true) (rest : Bytes) : StringEnd quote (b :: rest) ⟨.badString, 0⟩
  | input : StringEnd quote [] ⟨.string, 0⟩

/-- No more belongs to a backslash than what the scanner takes. -/
private theorem Continued.length_le (continued : Continued body) (rest : Bytes) :
    body.length ≤ continuationLength (body ++ rest) := by
  cases continued with
  | newline newline =>
    rw [continuationLength, if_pos (by exact newline)]
    exact length_le_blankLength (.one (Byte.isWhitespace_of_isNewline newline)) rest
  | pair => exact length_le_blankLength .pair rest
  | escape escaped =>
    have other : begins Byte.isNewline (body ++ rest) = false := by
      have := escaped.not_newline
      cases body with
      | nil => cases this
      | cons b body => simpa [begins] using this
    rw [continuationLength, other, if_neg Bool.false_ne_true]
    exact escaped.length_le rest

/-- The scanner takes a newline along as one. -/
private theorem continued_take_newline (newline : Byte.isNewline b = true) (rest : Bytes) :
    Continued ((b :: rest).take (blankLength (b :: rest))) := by
  have some := length_le_blankLength (.one (Byte.isWhitespace_of_isNewline newline)) rest
  have optional := blank_take (b :: rest)
  rw [List.singleton_append, List.length_singleton] at some
  obtain ⟨n, length⟩ := Nat.exists_eq_add_of_le' some
  rw [length, List.take_succ_cons] at optional ⊢
  generalize rest.take n = taken at optional ⊢
  cases optional with
  | one => exact .newline newline
  | pair => exact .pair

/-- What the scanner takes behind a backslash belongs to it, and whole characters are left. -/
private theorem continued_take (valid : IsUtf8 (c :: rest)) :
    Continued ((c :: rest).take (continuationLength (c :: rest))) ∧
      IsUtf8 ((c :: rest).drop (continuationLength (c :: rest))) := by
  by_cases newline : Byte.isNewline c = true
  · have optional := blank_take (c :: rest)
    rw [continuationLength, if_pos (by exact newline)]
    refine ⟨continued_take_newline newline rest, ?_⟩
    rw [← List.take_append_drop (blankLength (c :: rest)) (c :: rest)] at valid
    exact valid.of_append optional.ascii
  · have escape : begins (!Byte.isNewline ·) (c :: rest) = true := by simpa [begins] using newline
    rw [continuationLength, if_neg (by exact newline)]
    obtain ⟨escaped, left⟩ := escaped_take valid escape
    exact ⟨.escape escaped, left⟩

private theorem takes_continued : Takes Continued continuationLength where
  fits := continuationLength_le
  behind := by
    intro rest valid
    cases rest with
    | nil => exact .inl rfl
    | cons c rest => exact .inr (continued_take valid).1
  valid := by
    intro rest valid
    cases rest with
    | nil => exact valid
    | cons c rest => exact (continued_take valid).2
  whole _ rest continued := continued.length_le rest

private theorem ascii_of_endsString (isQuote : Byte.isQuote quote = true) (ends : endsString quote b = true) :
    b < 0x80 := by
  rw [endsString, Bool.or_eq_true, beq_iff_eq] at ends
  rcases ends with rfl | newline
  · exact ascii_of_isQuote isQuote
  · exact ascii_of_isNewline newline

private theorem isStringStop_eq (quote b : UInt8) :
    Buffer.isStringStop quote b = (endsString quote b || b == Byte.reverseSolidus) := by
  simp only [Buffer.isStringStop, endsString, Byte.isNewline]
  ac_rfl

/-- The scanner goes through the pieces of a string. -/
theorem quotedRest_readTo (isQuote : Byte.isQuote quote = true) (read : ReadTo Continued (endsString quote) pieces rest)
    (valid : IsUtf8 (pieces.flatten ++ rest)) :
    quotedRest quote (pieces.flatten ++ rest) = (quotedRest quote rest).extend pieces.flatten.length := by
  induction pieces with
  | nil => rfl
  | cons piece pieces ih =>
    obtain ⟨scanned, later, left⟩ := read.tail takes_continued (fun b => ascii_of_endsString isQuote) valid
    rw [List.flatten_cons, List.append_assoc]
    cases scanned with
    | @backslash body behind all =>
      have notQuote : (Byte.reverseSolidus == quote) = false := by
        rw [beq_eq_false_iff_ne]
        rintro rfl
        exact absurd isQuote (by decide)
      have notNewline : Byte.isNewline Byte.reverseSolidus = false := rfl
      rw [List.cons_append, quotedRest, notQuote, notNewline]
      simp only [Bool.false_eq_true, if_false, beq_self_eq_true, if_true]
      rw [all, List.drop_left, ih later left, Token.extend_extend, List.length_append, List.length_cons,
        Nat.add_comm]
    | character plain =>
      rw [Buffer.quotedRest_plain, ih later left, Token.extend_extend, List.length_append, Nat.add_comm]
      intro d member
      simp [isStringStop_eq, plain d member]

/-- In front of what ends a string the scanner takes nothing else. -/
theorem quotedRest_stop (atStop : rest = [] ∨ begins (endsString quote) rest = true) :
    StringEnd quote rest (quotedRest quote rest) := by
  cases rest with
  | nil =>
    rw [quotedRest]
    exact .input
  | cons b rest =>
    have ends : endsString quote b = true := by simpa [begins] using atStop
    rw [quotedRest]
    split
    · rename_i closed
      rw [← beq_iff_eq.mp closed]
      exact .closed rest
    · rename_i notQuote
      have newline : Byte.isNewline b = true := by simpa [endsString, notQuote] using ends
      rw [if_pos newline]
      exact .cut newline rest

end Scan

namespace Buffer

/-- Wherever a token begins with a quote, it is a string or a bad string, as the text behind the quote is read. -/
theorem scan_strings (s : String) : ∃ tokens, (ofText (Text.ofString s)).tokens 0 = .ok tokens ∧
    ∀ k quote body, Byte.isQuote quote = true → Token.ahead tokens (utf8 s) k = quote :: body →
      ∃ pieces rest stop, body = pieces.flatten ++ rest ∧
        Scan.ReadTo Scan.Continued (Scan.endsString quote) pieces rest ∧ Scan.StringEnd quote rest stop ∧
        tokens[k]? = some (stop.extend (pieces.flatten.length + 1)) := by
  refine ⟨Scan.tokens (utf8 s), tokens_start _, ?_⟩
  intro k quote body isQuote left
  have ascii := Scan.ascii_of_isQuote isQuote
  have valid := (Token.isUtf8_ahead (u := []) (isUtf8_utf8 s) left ascii).tail ascii
  obtain ⟨pieces, rest, rfl, read⟩ := Scan.exists_readTo Scan.takes_continued (Scan.endsString quote) valid
  refine ⟨pieces, rest, _, rfl, read, Scan.quotedRest_stop read.atStop, ?_⟩
  rw [Scan.getElem?_of_ahead left, Scan.next_quote _ isQuote, Scan.quotedRest_readTo isQuote read valid,
    Token.extend_extend]

/-- In `'\a` the newline behind the digit belongs to the escape, and only the next one cuts the string. -/
theorem scan_strings_escape :
    ∃ tokens, (ofText (Text.ofString "'\\a\nb\n'")).tokens 0 = .ok tokens ∧ Byte.isQuote Byte.apostrophe = true ∧
      Token.ahead tokens (utf8 "'\\a\nb\n'") 0 = Byte.apostrophe :: utf8 "\\a\nb\n'" ∧
      ∃ pieces rest stop, utf8 "\\a\nb\n'" = pieces.flatten ++ rest ∧
        Scan.ReadTo Scan.Continued (Scan.endsString Byte.apostrophe) pieces rest ∧
        Scan.StringEnd Byte.apostrophe rest stop ∧ stop.extend (pieces.flatten.length + 1) = ⟨.badString, 5⟩ := by
  obtain ⟨tokens, scan, strings⟩ := scan_strings "'\\a\nb\n'"
  have all : (ofText (Text.ofString "'\\a\nb\n'")).tokens 0 =
      .ok [⟨.badString, 5⟩, ⟨.whiteSpace, 1⟩, ⟨.string, 1⟩] := by decide +kernel
  obtain rfl := Except.ok.inj (scan.symm.trans all)
  have left : Token.ahead [⟨.badString, 5⟩, ⟨.whiteSpace, 1⟩, ⟨.string, 1⟩] (utf8 "'\\a\nb\n'") 0 =
      Byte.apostrophe :: utf8 "\\a\nb\n'" := by decide +kernel
  obtain ⟨pieces, rest, stop, same, read, isEnd, token⟩ := strings 0 Byte.apostrophe _ (by decide) left
  exact ⟨_, scan, by decide, left, pieces, rest, stop, same, read, isEnd, (Option.some.inj token).symm⟩

end Buffer
end CssLex
